import OrdinalMap.Skip
import OrdinalMap.Bitmap.Text
import OrdinalMap.Table

/-! # Positions in a table

Cursors over the entries of a table. A cursor holds only its position: it
moves by the occupancy of the table, and reads the entry it stands on from
the table. The same cursors serve for reading and for writing; one that may
write can be turned into one that only reads.
-/

namespace OrdinalMap

set_option autoImplicit false

structure Entry (κ ν : Type) where
  ordinal : Nat
  key : κ
  value : ν
  deriving DecidableEq, Repr

abbrev Position (a : Access) (d : Direction) : Type := Cursor (Skip a) d

def Position.toReadOnly {d : Direction} (p : Position .writable d) : Position .readOnly d :=
  Cursor.map Skip.toReadOnly p

namespace Table

variable {κ ν : Type} {D : Domain κ}

/-- Entries are put together from key and value on each access. -/
def ownership : Ownership := .iterator

def motion (a : Access) (t : Table D ν) : Motion (Skip a) := Skip.motion t.occupancy.selection

/-- The position exactly at an index; in reverse, the one before it. -/
def positionAt (a : Access) (d : Direction) (t : Table D ν) (i : Nat) : Except Fault (Position a d) := do
  let p ← Skip.ofIndex i D.count
  Cursor.ofPosition (t.motion a) p

def positionFrom (a : Access) (t : Table D ν) (i : Nat) : Except Fault (Position a .forward) := do
  let p ← Skip.firstFrom t.occupancy.selection i D.count
  Cursor.ofPosition (t.motion a) p

def first (a : Access) (t : Table D ν) : Except Fault (Position a .forward) := t.positionFrom a 0

def pastLast (a : Access) (t : Table D ν) : Except Fault (Position a .forward) :=
  t.positionAt a .forward D.count

def last (a : Access) (t : Table D ν) : Except Fault (Position a .reverse) :=
  t.positionAt a .reverse D.count

def beforeFirst (a : Access) (t : Table D ν) : Except Fault (Position a .reverse) :=
  t.positionAt a .reverse 0

/-- At the entry of a key, or past the last entry if it has none. -/
def find (a : Access) (t : Table D ν) (k : κ) : Except Fault (Position a .forward) :=
  t.positionAt a .forward (if t.holds (D.ordinal k) then D.ordinal k else D.count)

/-- The entry at an index. Access for writing also requires a slot there. -/
def entryAt (a : Access) (t : Table D ν) (i : Nat) : Except Fault (Entry κ ν) := do
  if a = .writable ∧ D.slots ≤ i then throw (.vacantPosition i)
  unless t.holds i do throw (.vacantPosition i)
  let value ← t.valueAt i
  let key ← D.keyAt i
  return { ordinal := i, key, value }

/-- The entry at a position, which from then on is the last one asked for
there, whether it exists or not. -/
def entry {a : Access} {d : Direction} (t : Table D ν) (p : Position a d) :
    Except Fault (Entry κ ν) × Position a d :=
  (t.entryAt a p.position.index, p.map Skip.seek)

/-- Writes through a position that allows it; returns the entry as it is then. -/
def modifyEntry {d : Direction} (p : Position .writable d) (f : ν → ν) : Action D ν (Entry κ ν) := do
  let e ← inspect fun t => t.entryAt .writable p.position.index
  let v ← modifyAt e.ordinal f
  return { e with value := v }

def positionText {a : Access} {d : Direction} (t : Table D ν) (p : Position a d) : Text :=
  let source := match a with
    | .readOnly => "PairProvider"
    | .writable => "PairProviderMut"
  p.text fun s =>
    s.text (.application "Occupied" (.word t.occupancy.text))
      (.partialRecord source [("index", .nat s.sought)])

end Table

end OrdinalMap
