import OrdinalMap.Table
import OrdinalMap.TwoEnded

/-! # Draining a table from both ends

A `Drain` owns a table and moves its entries out. `front` and `back` bound
the ordinals that have not been passed; the next entry is looked for in the
occupancy of what is left.
-/

namespace OrdinalMap

set_option autoImplicit false

structure Drain {κ : Type} (D : Domain κ) (ν : Type) where
  table : Table D ν
  front : Nat
  back : Nat

namespace Drain

variable {κ ν : Type} {D : Domain κ}

def ofTable (t : Table D ν) : Drain D ν where
  table := t
  front := 0
  back := D.count

def remaining (d : Drain D ν) : Nat := d.table.size

def extract (i : Nat) : EStateM Fault (Drain D ν) (κ × ν) := fun d =>
  match Table.extract i d.table with
  | .ok pair table => .ok pair { d with table }
  | .error e table => .error e { d with table }

def next : EStateM Fault (Drain D ν) (Option (κ × ν)) := do
  let d ← get
  match (d.table.occupancy.next? d.front).filter (· < d.back) with
  | none => return none
  | some i =>
    set { d with front := i + 1 }
    return some (← extract i)

def nextBack : EStateM Fault (Drain D ν) (Option (κ × ν)) := do
  let d ← get
  match (d.table.occupancy.prev? d.back).filter (d.front ≤ ·) with
  | none => return none
  | some i =>
    set { d with back := i }
    return some (← extract i)

def ends : TwoEnded (Drain D ν) (κ × ν) where
  next := next
  nextBack := nextBack
  remaining := remaining

end Drain

end OrdinalMap
