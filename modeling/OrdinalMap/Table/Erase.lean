import OrdinalMap.Table.Insert

/-! # Erasing entries

Entries are erased by key, by a range of keys, or by a test on key and
value; `take?` and `takeEntry?` give out what they erase.
-/

namespace OrdinalMap

set_option autoImplicit false

inductive Bound (κ : Type) where
  | included (k : κ)
  | excluded (k : κ)
  | unbounded
  deriving DecidableEq, Repr

namespace Bound

variable {κ : Type}

def after (D : Domain κ) (k : κ) : Except Fault Nat :=
  if D.ordinal k < indexBound - 1 then .ok (D.ordinal k + 1) else .error .indexOverflow

def start (D : Domain κ) : Bound κ → Except Fault Nat
  | included k => .ok (D.ordinal k)
  | excluded k => after D k
  | unbounded => .ok 0

def stop (D : Domain κ) : Bound κ → Except Fault Nat
  | included k => after D k
  | excluded k => .ok (D.ordinal k)
  | unbounded => .ok D.count

end Bound

namespace Table

variable {κ ν : Type} {D : Domain κ}

def takeEntry? (k : κ) : Action D ν (Option (κ × ν)) := do
  if (← get).contains k then return some (← extract (D.ordinal k))
  return none

def take? (k : κ) : Action D ν (Option ν) := do
  return (← takeEntry? k).map Prod.snd

variable [Disposal ν]

def erase (k : κ) : Action D ν Nat := do
  unless (← get).contains k do return 0
  release (D.ordinal k)
  return 1

/-- Erases the entry of a key that must have one, and returns the position
of the entry after it. -/
def eraseAt (k : κ) : Action D ν (Position .writable .forward) := do
  unless (← get).contains k do throw .erasedVacant
  release (D.ordinal k)
  inspect fun t => t.positionFrom .writable (D.ordinal k)

/-- Erases the entries among the `count` ordinals from `start` on, and
returns their number. -/
def eraseSpan : (count start : Nat) → Action D ν Nat
  | 0, _ => return 0
  | count + 1, start => do
    if (← get).holds start then
      release start
      return (← eraseSpan count (start + 1)) + 1
    else eraseSpan count (start + 1)

/-- Erases the entries whose keys lie between two bounds by their ordinals,
and returns their number. Bounds that are out of order are refused before
anything is erased. -/
def eraseRange (lower upper : Bound κ) : Action D ν Nat := do
  let start ← inspect fun _ => lower.start D
  let stop ← inspect fun _ => upper.stop D
  if stop < start then throw (.rangeReversed start stop)
  eraseSpan (min stop D.count - start) start

/-- A test with a state of its own, which may change the value it is shown
and may fault. -/
abbrev Test (σ κ ν : Type) : Type := σ → κ → ν → Except Fault Bool × ν × σ

/-- Shows the entries among the `count` ordinals from `start` on to a test,
and erases those that fail it. Returns the state of the test. -/
def retainSpan {σ : Type} (keep : Test σ κ ν) : (count start : Nat) → σ → Action D ν σ
  | 0, _, s => return s
  | count + 1, start, s => do
    if (← get).holds start then
      let v ← inspect fun t => t.valueAt start
      let k ← inspect fun _ => D.keyAt start
      let (kept, v, s) := keep s k v
      setSlot start (.held v)
      unless ← inspect fun _ => kept do release start
      retainSpan keep count (start + 1) s
    else retainSpan keep count (start + 1) s

def retain {σ : Type} (keep : Test σ κ ν) (s : σ) : Action D ν σ := retainSpan keep D.count 0 s

/-- Erases the entries that pass a test, shown to it in ascending order, and
returns their number and the state of the test. -/
def eraseIf {σ : Type} (test : σ → κ → ν → Except Fault Bool × σ) (s : σ) : Action D ν (Nat × σ) := do
  let before := (← get).size
  let s ← retain (fun s k v => ((test s k v).1.map (!·), v, (test s k v).2)) s
  let after := (← get).size
  if before < after then throw (.breach .sizeUnderflow)
  return (before - after, s)

/-- Erases the first `limit` entries from an ordinal on, one by one. -/
def releaseFrom : (limit start : Nat) → Action D ν Unit
  | 0, _ => return
  | limit + 1, start => do
    match (← get).occupancy.next? start with
    | none => return
    | some i =>
      release i
      releaseFrom limit (i + 1)

/-- Erases all entries. Values that own something are disposed of one by
one; the occupancy and the size are reset in any case. -/
def clear : Action D ν Unit := do
  if Disposal.needed ν then releaseFrom D.capacity 0
  modify fun t => { t with occupancy := t.occupancy.clear, size := 0 }
  audit

/-- Gives up a table, and with it the values of its entries. -/
def dispose : Action D ν Unit := clear

/-- The faults that come of giving up a table, of which there is at most one. -/
def lastFaults (t : Table D ν) : List Fault :=
  match dispose t with
  | .ok .. => []
  | .error f _ => [f]

/-- What is left of a table that has been given up. -/
def remnant (t : Table D ν) : Table D ν :=
  match dispose t with
  | .ok _ u => u
  | .error _ u => u

instance : Disposal (Table D ν) where
  glue := some fun t =>
    match dispose t with
    | .ok .. => .ok ()
    | .error f _ => .error f.message

end Table

end OrdinalMap
