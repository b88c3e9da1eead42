import OrdinalMap.Bitmap

/-! # The text of a bitmap

Bits are written lowest first, in groups of eight. Each group begins with
the index of its first bit, and a blank parts it from the next.
-/

namespace OrdinalMap.Bitmap

set_option autoImplicit false

variable {n : Nat}

/-- What is written for bit `i`: the heading of its group if it begins one,
its digit, and a blank if it ends a group that is not the last. -/
def bitText (b : Bitmap n) (i : Nat) : String :=
  (if i % 8 = 0 then toString i ++ ": " else "")
    ++ (if b.contains i then "1" else "0")
    ++ (if i % 8 = 7 ∧ i + 1 < n then " " else "")

def text (b : Bitmap n) : String :=
  "LSB -> " ++ String.join ((List.range n).map b.bitText) ++ " <- MSB"

end OrdinalMap.Bitmap
