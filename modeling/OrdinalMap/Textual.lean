import OrdinalMap.Fault
import OrdinalMap.Text.Quoted

/-! # Values with a written form

Writing a value may look into a table, and faults where that does.
-/

namespace OrdinalMap

set_option autoImplicit false

class Textual (α : Type) where
  text : α → Except Fault Text

instance : Textual Bool where
  text b := .ok (.word (toString b))

instance : Textual Int64 where
  text i := .ok (.word (toString i.toInt))

instance : Textual String where
  text s := .ok (.word (Text.quoted s))

end OrdinalMap
