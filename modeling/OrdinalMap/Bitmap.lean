import OrdinalMap.Fault

/-! # Bitmaps of a fixed capacity

A `Bitmap n` records a set of indices below `n`, eight of them to a bucket.
Index `i` is bit `i % 8` of bucket `i / 8`. `contains` is the view in which
the other operations are described.
-/

namespace OrdinalMap

set_option autoImplicit false

def bucketCount (n : Nat) : Nat := (n + 7) / 8

structure Bitmap (n : Nat) where
  buckets : Vector (BitVec 8) (bucketCount n)
  deriving DecidableEq

namespace Bitmap

variable {n : Nat}

theorem bucket_lt {i : Nat} (h : i < n) : i / 8 < bucketCount n := by
  unfold bucketCount
  omega

def empty : Bitmap n where
  buckets := .replicate _ 0

instance : EmptyCollection (Bitmap n) := ⟨empty⟩

instance : Inhabited (Bitmap n) := ⟨empty⟩

/-- The empty bitmap, for a caller that also counts the buckets. -/
def withBuckets (n buckets : Nat) : Except Fault (Bitmap n) :=
  if bucketCount n = buckets then .ok empty else .error .bucketMismatch

/-- Total membership: no index from `n` on is a member. -/
def contains (b : Bitmap n) (i : Nat) : Bool :=
  if h : i < n then
    have := bucket_lt h
    b.buckets[i / 8].getLsbD (i % 8)
  else false

def isSet (b : Bitmap n) (i : Nat) : Except Fault Bool :=
  if i < n then .ok (b.contains i) else .error (.bitOutOfBounds i)

def insert (b : Bitmap n) (i : Nat) : Except Fault (Bitmap n) :=
  if h : i < n then
    have := bucket_lt h
    .ok ⟨b.buckets.set (i / 8) (b.buckets[i / 8] ||| .twoPow 8 (i % 8))⟩
  else .error (.bitOutOfBounds i)

def erase (b : Bitmap n) (i : Nat) : Except Fault (Bitmap n) :=
  if h : i < n then
    have := bucket_lt h
    .ok ⟨b.buckets.set (i / 8) (b.buckets[i / 8] &&& ~~~(.twoPow 8 (i % 8)))⟩
  else .error (.bitOutOfBounds i)

def clear (b : Bitmap n) : Bitmap n where
  buckets := b.buckets.map fun _ => 0

def size (b : Bitmap n) : Nat := b.buckets.toList.foldr (fun x total => x.cpop.toNat + total) 0

def capacity (_ : Bitmap n) : Nat := n

end Bitmap

end OrdinalMap
