/-! # Positions as 64-bit words

Ordinals, positions and bounds are natural numbers below `indexBound`. The
largest of them stands one before the first position, because its successor
in 64 bits is zero.
-/

namespace OrdinalMap

set_option autoImplicit false

def indexBound : Nat := 0x10000000000000000

def beforeBegin : Nat := indexBound - 1

/-- The next word: after the largest comes zero. -/
def nextIndex (i : Nat) : Nat := (i + 1) % indexBound

theorem two_lt_indexBound : 2 < indexBound := by decide

theorem nextIndex_beforeBegin : nextIndex beforeBegin = 0 := by decide

theorem nextIndex_of_lt {i : Nat} (h : i < beforeBegin) : nextIndex i = i + 1 := by
  apply Nat.mod_eq_of_lt
  simp only [beforeBegin, indexBound] at h ⊢
  omega

end OrdinalMap
