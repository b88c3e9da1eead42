import OrdinalMap.Index

/-! # Key domains

A domain gives each key an ordinal, and says how many keys there are, which
ones they are, and how large a table over it is. Nothing forces these data to
agree: `isContiguous` tests it, and `Lawful` adds what no test can see.
-/

namespace OrdinalMap

set_option autoImplicit false

structure Domain (κ : Type) where
  count : Nat
  /-- The keys, each at the place of its ordinal if the domain is in order. -/
  values : List κ
  ordinal : κ → Nat
  /-- Number of value slots of a table. -/
  slots : Nat := count
  /-- Number of ordinals that the occupancy of a table can record. -/
  capacity : Nat := count
  count_lt : count < indexBound := by decide
  capacity_lt : capacity < indexBound := by decide

namespace Domain

variable {κ : Type}

/-- Ordinals are `0, 1, …` in the order in which the keys are listed, and
every size is the number of keys. -/
def isContiguous (D : Domain κ) : Bool :=
  D.values.length == D.count && D.slots == D.count && D.capacity == D.count
    && (D.values.map D.ordinal) == List.range D.values.length

/-- A contiguous domain that lists every key, and whose number of keys can
be told from the position before the first. -/
structure Lawful (D : Domain κ) : Prop where
  contiguous : D.isContiguous = true
  listed : ∀ k, k ∈ D.values
  count_lt : D.count < beforeBegin

def bool : Domain Bool where
  count := 2
  values := [false, true]
  ordinal b := b.toNat
  count_lt := two_lt_indexBound
  capacity_lt := two_lt_indexBound

theorem bool_lawful : bool.Lawful where
  contiguous := by decide
  listed := by decide
  count_lt := by decide

end Domain

end OrdinalMap
