import OrdinalMap.Bitmap

/-! # Scanning a bitmap

The next member upwards and the next one downwards, found bucket by bucket:
the bucket that holds the start is masked, and empty buckets are passed over
without looking at their bits. Repeating the upward scan lists the members.
-/

namespace OrdinalMap.Bitmap

set_option autoImplicit false

variable {n : Nat}

/-- The bits of a bucket from place `r` on. -/
def maskFrom (r : Nat) (x : BitVec 8) : BitVec 8 := x &&& (BitVec.allOnes 8 <<< r)

def maskBelow (r : Nat) (x : BitVec 8) : BitVec 8 := x &&& ~~~(BitVec.allOnes 8 <<< r)

def lowest (g : Nat) : List (BitVec 8) → Option Nat
  | [] => none
  | x :: xs => if x = 0 then lowest (g + 1) xs else some (8 * g + x.ctz.toNat)

/-- The highest bit set in buckets that begin with bucket `g`: the last
bucket that is not empty decides. -/
def highest (g : Nat) : List (BitVec 8) → Option Nat
  | [] => none
  | x :: xs => (highest (g + 1) xs).or (if x = 0 then none else some (8 * g + 7 - x.clz.toNat))

def next? (b : Bitmap n) (start : Nat) : Option Nat :=
  if start < n then
    match b.buckets.toList.drop (start / 8) with
    | [] => none
    | x :: xs => (lowest (start / 8) (maskFrom (start % 8) x :: xs)).filter (· < n)
  else none

/-- The greatest member below `before`. A bound beyond the capacity asks for
the greatest member of all. -/
def prev? (b : Bitmap n) (before : Nat) : Option Nat :=
  match min before n with
  | 0 => none
  | last + 1 =>
    match b.buckets.toList.drop (last / 8) with
    | [] => none
    | x :: _ => highest 0 (b.buckets.toList.take (last / 8) ++ [maskBelow (last % 8 + 1) x])

/-- The members from `start` on, at most `limit` of them. -/
def walk (b : Bitmap n) : (limit : Nat) → (start : Nat) → List Nat
  | 0, _ => []
  | limit + 1, start =>
    match b.next? start with
    | none => []
    | some i => i :: b.walk limit (i + 1)

/-- The members in ascending order. There are no more than `n` of them. -/
def toList (b : Bitmap n) : List Nat := b.walk n 0

end OrdinalMap.Bitmap
