import OrdinalMap.Bitmap.Scan
import OrdinalMap.Domain
import OrdinalMap.Slot

/-! # Tables over a key domain

A table has one slot for each ordinal, the occupancy that says which slots
count, and the number of entries. Actions change a table; one that faults
keeps what it did up to then. The actions here work at an ordinal and touch
slots, occupancy and size in a fixed order:

* `construct` writes the slot, then marks it, then counts it;
* `release` unmarks, discounts, and last disposes of the value;
* `extract` finds the key first, then unmarks, discounts, and takes the value.

Values that no entry has any more are disposed of last, since that may stop part way. Only
`overwrite` goes on even then, and puts the new value in the place of the old one.
-/

namespace OrdinalMap

set_option autoImplicit false

structure Table {κ : Type} (D : Domain κ) (ν : Type) where
  slots : Vector (Slot ν) D.slots
  occupancy : Bitmap D.capacity
  size : Nat
  deriving DecidableEq

/-- A change of a table that may fault part way. -/
abbrev Action {κ : Type} (D : Domain κ) (ν : Type) (α : Type) : Type :=
  EStateM Fault (Table D ν) α

def Domain.keyAt {κ : Type} (D : Domain κ) (i : Nat) : Except Fault κ :=
  match D.values[i]? with
  | some k => .ok k
  | none => .error (.indexOutOfBounds D.values.length i)

namespace Table

variable {κ ν : Type} {D : Domain κ}

def empty : Table D ν where
  slots := .replicate _ .unwritten
  occupancy := .empty
  size := 0

instance : EmptyCollection (Table D ν) := ⟨empty⟩

instance : Inhabited (Table D ν) := ⟨empty⟩

def isEmpty (t : Table D ν) : Bool := t.size == 0

def holds (t : Table D ν) (i : Nat) : Bool := t.occupancy.contains i

/-- The slot of an ordinal that has an entry, and so has a slot. -/
def slotAt (t : Table D ν) (i : Nat) : Except Fault (Slot ν) :=
  if h : i < D.slots then .ok t.slots[i] else .error (.breach .missingSlot)

def valueAt (t : Table D ν) (i : Nat) : Except Fault ν :=
  match t.slotAt i with
  | .ok s => s.peek
  | .error e => .error e

def audit : Action D ν Unit := fun t =>
  if t.size = t.occupancy.size then .ok () t else .error (.breach .sizeMismatch) t

/-- Changes the slot of an ordinal, which there may not be. -/
def changeSlot (i : Nat) (f : Slot ν → Slot ν) : Action D ν Unit := fun t =>
  if h : i < D.slots then .ok () { t with slots := t.slots.set i (f t.slots[i]) }
  else .error (.indexOutOfBounds D.slots i) t

def setSlot (i : Nat) (s : Slot ν) : Action D ν Unit := changeSlot i fun _ => s

def mark (i : Nat) : Action D ν Unit := fun t =>
  match t.occupancy.insert i with
  | .ok occupancy => .ok () { t with occupancy }
  | .error e => .error e t

def unmark (i : Nat) : Action D ν Unit := fun t =>
  match t.occupancy.erase i with
  | .ok occupancy => .ok () { t with occupancy }
  | .error e => .error e t

def countUp : Action D ν Unit := fun t => .ok () { t with size := t.size + 1 }

def countDown : Action D ν Unit := fun t =>
  match t.size with
  | 0 => .error (.breach .sizeUnderflow) t
  | size + 1 => .ok () { t with size }

/-- Runs something that only looks at the table. -/
def inspect {α : Type} (f : Table D ν → Except Fault α) : Action D ν α := fun t =>
  match f t with
  | .ok a => .ok a t
  | .error e => .error e t

def construct (i : Nat) (v : ν) : Action D ν Unit := do
  if (← get).holds i then throw (.breach .positionInUse)
  changeSlot i (·.write v)
  mark i
  countUp
  audit

def extract (i : Nat) : Action D ν (κ × ν) := do
  unless (← get).holds i do throw (.breach .positionVacant)
  let k ← inspect fun _ => D.keyAt i
  unmark i
  countDown
  audit
  let s ← inspect fun t => t.slotAt i
  let (v, s) ← inspect fun _ => s.take
  setSlot i s
  return (k, v)

/-- Replaces the value of an entry by its image, which it returns. -/
def modifyAt (i : Nat) (f : ν → ν) : Action D ν ν := do
  let s ← inspect fun t => t.slotAt i
  let s ← inspect fun _ => s.modify f
  setSlot i s
  inspect fun _ => s.peek

def build (x : Action D ν Unit) : Except Fault (Table D ν) :=
  match x empty with
  | .ok _ t => .ok t
  | .error e _ => .error e

/-- What an action that stops part way leaves of the table that it was to build. -/
def unfinished {α : Type} (x : Action D ν α) : List (Table D ν) :=
  match x empty with
  | .ok .. => []
  | .error _ t => [t]

section Disposal

variable [Disposal ν]

/-- Gives up a value that no entry has. -/
def giveUp (v : ν) : Action D ν Unit := inspect fun _ => Disposal.dispose v

/-- Gives up the value in a slot. The slot is empty then, even if that stops part way. -/
def disposeAt (i : Nat) : Action D ν Unit := do
  let s ← inspect fun t => t.slotAt i
  setSlot i .unwritten
  discard <| inspect fun _ => s.dispose

def release (i : Nat) : Action D ν Unit := do
  unless (← get).holds i do throw (.breach .positionVacant)
  unmark i
  countDown
  audit
  if Disposal.needed ν then disposeAt i

/-- Puts a value in the place of the one that an entry has, which is given up first. The
new value is written also if that stops part way. -/
def overwrite (i : Nat) (v : ν) : Action D ν Unit := do
  try disposeAt i
  finally changeSlot i (·.write v)

/-- Makes an entry if there is none, or else gives up the value. -/
def constructNew (i : Nat) (v : ν) : Action D ν Bool := do
  if (← get).holds i then
    giveUp v
    return false
  construct i v
  return true

end Disposal

end Table

end OrdinalMap
