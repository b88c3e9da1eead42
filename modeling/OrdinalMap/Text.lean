/-! # Written form of values

A value is written on one line, or spread over lines with four spaces for
each level of nesting. Braces, commas and field names are laid out here; the
words inside come from the values.
-/

namespace OrdinalMap

set_option autoImplicit false

/-- The two written forms of a value. `spread d` is the form over several
lines of a value that stands at depth `d`; its first line is not indented. -/
structure Text where
  compact : String
  spread : Nat → String

namespace Text

def indent (depth : Nat) : String := String.ofList (List.replicate (4 * depth) ' ')

def word (s : String) : Text where
  compact := s
  spread _ := s

def nat (n : Nat) : Text := word (toString n)

/-- `opening`, the parts, `closing`; the spread form gives each part a line
of its own, one level deeper, with `mark` after it. -/
def enclose (opening closing mark : String) (parts : List Text) (depth : Nat) : String :=
  opening ++ "\n"
    ++ String.join (parts.map fun p => indent (depth + 1) ++ p.spread (depth + 1) ++ mark ++ "\n")
    ++ indent depth ++ closing

def labelled (label : Text) (value : Text) : Text where
  compact := label.compact ++ ": " ++ value.compact
  spread d := label.spread d ++ ": " ++ value.spread d

def dict (pairs : List (Text × Text)) : Text :=
  let parts := pairs.map fun p => labelled p.1 p.2
  { compact := "\x7b" ++ ", ".intercalate (parts.map compact) ++ "\x7d"
    spread := fun d => if parts.isEmpty then "\x7b\x7d" else enclose "\x7b" "\x7d" "," parts d }

/-- A name and its fields in braces; a name without fields stands alone. -/
def record (name : String) (fields : List (String × Text)) : Text :=
  let parts := fields.map fun f => labelled (word f.1) f.2
  if parts.isEmpty then word name else
  { compact := name ++ " \x7b " ++ ", ".intercalate (parts.map compact) ++ " \x7d"
    spread := enclose (name ++ " \x7b") "\x7d" "," parts }

/-- A record that shows only some of its fields, and says so with two dots. -/
def partialRecord (name : String) (fields : List (String × Text)) : Text :=
  let parts := fields.map fun f => labelled (word f.1) f.2
  { compact := name ++ " \x7b " ++ ", ".intercalate (parts.map compact ++ [".."]) ++ " \x7d"
    spread := fun d =>
      name ++ " \x7b\n"
        ++ String.join (parts.map fun p => indent (d + 1) ++ p.spread (d + 1) ++ ",\n")
        ++ indent (d + 1) ++ "..\n" ++ indent d ++ "\x7d" }

def application (name : String) (argument : Text) : Text where
  compact := name ++ "(" ++ argument.compact ++ ")"
  spread := enclose (name ++ "(") ")" "," [argument]

end Text

end OrdinalMap
