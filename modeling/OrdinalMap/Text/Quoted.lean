import OrdinalMap.Text.Printable

/-! # Quoted strings

A string is written between double quotes. A quote and a backslash get a
backslash before them; the zero, tab, line feed and carriage return have
short names; any other character that does not print is written by its code.
-/

namespace OrdinalMap.Text

set_option autoImplicit false

def quotedChar (c : Char) : String :=
  match c with
  | '\"' => "\\\""
  | '\\' => "\\\\"
  | '\n' => "\\n"
  | '\r' => "\\r"
  | '\t' => "\\t"
  | '\x00' => "\\0"
  | c =>
    if isPrintable c then c.toString
    else "\\u\x7b" ++ String.ofList (Nat.toDigits 16 c.toNat) ++ "\x7d"

def quoted (s : String) : String := "\"" ++ String.join (s.toList.map quotedChar) ++ "\""

end OrdinalMap.Text
