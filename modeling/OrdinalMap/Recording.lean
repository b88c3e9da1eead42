import OrdinalMap.Bitmap

/-! # Recordings

The sequence of tokens that a value presents to whoever wants a digest of
it. A composed value presents its size before its parts, so that the parts
can be told apart again.
-/

namespace OrdinalMap

set_option autoImplicit false

inductive Token where
  | size (n : Nat)
  | int (i : Int)
  | byte (b : UInt8)
  | bytes (bs : List UInt8)
  deriving DecidableEq, Repr

class Recordable (α : Type) where
  record : α → Except Fault (List Token)

instance : Recordable Int64 where
  record i := .ok [.int i.toInt]

/-- The bytes of a string do not show where it ends; a byte that no string
contains follows them. -/
instance : Recordable String where
  record s := .ok [.bytes s.toUTF8.toList, .byte 255]

def Bitmap.record {n : Nat} (b : Bitmap n) : List Token :=
  [.size (bucketCount n), .bytes (b.buckets.toList.map fun x => ⟨x⟩)]

end OrdinalMap
