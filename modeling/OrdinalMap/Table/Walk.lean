import OrdinalMap.Table.Position
import OrdinalMap.TwoEnded

/-! # Walking over a table from both ends

A `Walk` has a front and a back position and closes in on the entries
between them; `remaining` counts these. The front reads its entry and then
moves; the back moves and then reads. A walk with writable positions yields
entries that may be written, and sees what was written to the others.
-/

namespace OrdinalMap

set_option autoImplicit false

structure Walk (a : Access) where
  front : Position a .forward
  back : Position a .forward
  remaining : Nat
  deriving DecidableEq, Repr

namespace Walk

variable {κ ν : Type} {D : Domain κ} {a : Access}

def ofTable (a : Access) (t : Table D ν) : Except Fault (Walk a) := do
  let front ← t.first a
  let back ← t.pastLast a
  return { front, back, remaining := t.size }

def isDone (w : Walk a) : Bool := w.front.position.same w.back.position

def countDown : EStateM Fault (Walk a) Unit := fun w =>
  match w.remaining with
  | 0 => .error (.breach .sizeUnderflow) w
  | remaining + 1 => .ok () { w with remaining }

def readFront (t : Table D ν) : EStateM Fault (Walk a) (Entry κ ν) := fun w =>
  match t.entry w.front with
  | (.ok e, front) => .ok e { w with front }
  | (.error f, front) => .error f { w with front }

def readBack (t : Table D ν) : EStateM Fault (Walk a) (Entry κ ν) := fun w =>
  match t.entry w.back with
  | (.ok e, back) => .ok e { w with back }
  | (.error f, back) => .error f { w with back }

def moveFront (t : Table D ν) : EStateM Fault (Walk a) Unit := fun w =>
  match w.front.increment (t.motion a) with
  | .ok front => .ok () { w with front }
  | .error f => .error f w

def moveBack (t : Table D ν) : EStateM Fault (Walk a) Unit := fun w =>
  match w.back.decrement (t.motion a) with
  | .ok back => .ok () { w with back }
  | .error f => .error f w

def next (t : Table D ν) : EStateM Fault (Walk a) (Option (Entry κ ν)) := do
  if (← get).isDone then return none
  let e ← readFront t
  moveFront t
  countDown
  return some e

def nextBack (t : Table D ν) : EStateM Fault (Walk a) (Option (Entry κ ν)) := do
  if (← get).isDone then return none
  moveBack t
  countDown
  return some (← readBack t)

def ends (t : Table D ν) : TwoEnded (Walk a) (Entry κ ν) where
  next := next t
  nextBack := nextBack t
  remaining := remaining

def revise (f : ν → ν) (e : End) : EStateM Fault (Table D ν × Walk .writable) (Option (Entry κ ν)) :=
  fun (t, w) =>
    match (ends t).pull e w with
    | .error e w => .error e (t, w)
    | .ok none w => .ok none (t, w)
    | .ok (some entry) w =>
      match Table.modifyAt entry.ordinal f t with
      | .ok v t => .ok (some { entry with value := v }) (t, w)
      | .error e t => .error e (t, w)

def revising (f : ν → ν) : TwoEnded (Table D ν × Walk .writable) (Entry κ ν) where
  next := revise f .front
  nextBack := revise f .back
  remaining s := s.2.remaining

def text (w : Walk a) : Text :=
  let name := match a with
    | .readOnly => "Iter"
    | .writable => "IterMut"
  .record name
    [("front", .nat w.front.position.index), ("back", .nat w.back.position.index),
      ("remaining", .nat w.remaining)]

end Walk

namespace Table

variable {κ ν : Type} {D : Domain κ}

/-- The entries of a table in ascending order. -/
def entries (t : Table D ν) : Except Fault (List (Entry κ ν)) := do
  let w ← Walk.ofTable .readOnly t
  match (Walk.ends t).drain .front w with
  | .ok es _ => return es
  | .error e _ => throw e

end Table

end OrdinalMap
