import OrdinalMap.Table.Walk
import OrdinalMap.Table.Drain
import OrdinalMap.Textual

/-! # The text of a table

A table is written as its entries in ascending order, in braces. Writing
walks over the table and faults where the walk does.
-/

namespace OrdinalMap

set_option autoImplicit false

namespace Table

variable {κ ν : Type} {D : Domain κ} [Textual κ] [Textual ν]

def entryTexts : List (Entry κ ν) → Except Fault (List (Text × Text))
  | [] => .ok []
  | e :: es => do
    let key ← Textual.text e.key
    let value ← Textual.text e.value
    return (key, value) :: (← entryTexts es)

def text (t : Table D ν) : Except Fault Text := do
  return .dict (← entryTexts (← t.entries))

instance : Textual (Table D ν) := ⟨text⟩

end Table

def Drain.text {κ ν : Type} {D : Domain κ} [Textual κ] [Textual ν] (d : Drain D ν) : Except Fault Text := do
  return .application "IntoIter" (← d.table.text)

end OrdinalMap
