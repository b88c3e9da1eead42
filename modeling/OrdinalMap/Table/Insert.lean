import OrdinalMap.Table.Position
import OrdinalMap.Table.Lookup

/-! # Inserting entries

`insert` keeps an entry that is there, `assign` overwrites it. Both return
the position of the key and whether the entry is new. The value that is not
kept is given up.
-/

namespace OrdinalMap.Table

set_option autoImplicit false

variable {κ ν : Type} {D : Domain κ}

def place (i : Nat) : Action D ν (Position .writable .forward) :=
  inspect fun t => t.positionAt .writable .forward i

/-- Inserts the value that `make` gives. `make` has a state, may fault, and
runs only if the key has no entry; the last component is its state then. -/
def emplace {σ : Type} (k : κ) (make : σ → Except Fault ν × σ) (s : σ) :
    Action D ν (Position .writable .forward × Bool × σ) := do
  if (← get).contains k then return (← place (D.ordinal k), false, s)
  let (made, s) := make s
  let v ← inspect fun _ => made
  construct (D.ordinal k) v
  return (← place (D.ordinal k), true, s)

/-- Inserts `initial` unless the key has an entry, then replaces the value of
the key by its image, which it returns. -/
def modifyOrInsert (k : κ) (initial : ν) (f : ν → ν) : Action D ν ν := do
  unless (← get).contains k do construct (D.ordinal k) initial
  modifyAt (D.ordinal k) f

variable [Disposal ν]

def insert (k : κ) (v : ν) : Action D ν (Position .writable .forward × Bool) := do
  let new ← constructNew (D.ordinal k) v
  return (← place (D.ordinal k), new)

def assign (k : κ) (v : ν) : Action D ν (Position .writable .forward × Bool) := do
  let new := !(← get).contains k
  if new then construct (D.ordinal k) v
  else overwrite (D.ordinal k) v
  return (← place (D.ordinal k), new)

/-- Inserts pairs one after the other: of several with one key the first counts. -/
def insertMany : List (κ × ν) → Action D ν Unit
  | [] => return
  | (k, v) :: pairs => do
    discard <| constructNew (D.ordinal k) v
    insertMany pairs

/-- Assigns copies of one value to keys one after the other. Returns the state
of the copier. -/
def assignMany {σ : Type} (copy : Copier σ ν) (v : ν) : List κ → σ → Action D ν σ
  | [], s => return s
  | k :: keys, s => do
    let (made, s) := copy s v
    let w ← inspect fun _ => made
    discard <| assign k w
    assignMany copy v keys s

/-- The table of a list of pairs: of several with one key the first counts. -/
def ofList (pairs : List (κ × ν)) : Except Fault (Table D ν) := build (insertMany pairs)

/-- Assigns copies of a value to keys, after which the value itself is given up. -/
def assignCopies {σ : Type} (copy : Copier σ ν) (s : σ) (keys : List κ) (v : ν) : Action D ν Unit := do
  discard <| assignMany copy v keys s
  giveUp v

def ofKeysWith {σ : Type} (copy : Copier σ ν) (s : σ) (keys : List κ) (v : ν) : Except Fault (Table D ν) :=
  build (assignCopies copy s keys v)

def ofKeys (keys : List κ) (v : ν) : Except Fault (Table D ν) := ofKeysWith .exact () keys v

end OrdinalMap.Table
