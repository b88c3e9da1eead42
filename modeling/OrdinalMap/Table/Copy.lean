import OrdinalMap.Table.Erase
import OrdinalMap.Recording

/-! # Copying and comparing tables

`clone` makes its copy entry by entry, `copied` slot by slot. Tables are
equal if they have entries for the same ordinals, with equal values.
-/

namespace OrdinalMap.Table

set_option autoImplicit false

variable {κ ν : Type} {D : Domain κ}

/-- Makes the entries that `source` has at the ordinals, with copies of their
values. Returns the state of the copier. -/
def constructFrom {σ : Type} (copy : Copier σ ν) (source : Table D ν) : List Nat → σ → Action D ν σ
  | [], s => return s
  | i :: is, s => do
    let v ← inspect fun _ => source.valueAt i
    let (made, s) := copy s v
    let w ← inspect fun _ => made
    construct i w
    constructFrom copy source is s

/-- Makes the entries of `source` with copies of their values. -/
def constructCopies {σ : Type} (copy : Copier σ ν) (s : σ) (source : Table D ν) : Action D ν σ :=
  constructFrom copy source source.occupancy.toList s

def cloneWith {σ : Type} (copy : Copier σ ν) (s : σ) (t : Table D ν) : Except Fault (Table D ν) :=
  build (discard <| constructCopies copy s t)

def clone (t : Table D ν) : Except Fault (Table D ν) := t.cloneWith .exact ()

/-- Makes this table a clone of `source`. Returns the state of the copier. -/
def cloneFromWith [Disposal ν] {σ : Type} (copy : Copier σ ν) (s : σ) (source : Table D ν) :
    Action D ν σ := do
  clear
  constructCopies copy s source

def cloneFrom [Disposal ν] (source : Table D ν) : Action D ν Unit := cloneFromWith .exact () source

/-- The flat copy: what lies in slots without an entry is copied as well. -/
def copied (t : Table D ν) : Table D ν where
  slots := t.slots
  occupancy := t.occupancy
  size := t.size

def fresh : Except Fault (Table D ν) :=
  if D.isContiguous then .ok empty else .error .unlawfulDomain

def takeAll : Action D ν (Table D ν) := do
  let left : Table D ν ← inspect fun _ => fresh
  let t ← get
  set left
  return t

def agree [BEq ν] (t u : Table D ν) : List Nat → Except Fault Bool
  | [] => .ok true
  | i :: is => do
    let v ← t.valueAt i
    let w ← u.valueAt i
    if v == w then agree t u is else return false

def equal [BEq ν] (t u : Table D ν) : Except Fault Bool :=
  if t.occupancy = u.occupancy then agree t u t.occupancy.toList else .ok false

instance [BEq ν] : BEq (Table D ν) where
  beq t u := match equal t u with
    | .ok same => same
    | .error _ => false

def recordEntries [Recordable ν] (t : Table D ν) : List Nat → Except Fault (List Token)
  | [] => .ok []
  | i :: is => do
    let v ← t.valueAt i
    let r ← Recordable.record v
    return .size i :: r ++ (← recordEntries t is)

/-- The size, then the ordinal and the value of each entry. -/
def record [Recordable ν] (t : Table D ν) : Except Fault (List Token) := do
  return .size t.size :: (← t.recordEntries t.occupancy.toList)

instance [Recordable ν] : Recordable (Table D ν) := ⟨record⟩

end OrdinalMap.Table
