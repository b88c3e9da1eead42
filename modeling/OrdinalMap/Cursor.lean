import OrdinalMap.Fault

/-! # Cursors

A cursor moves over the positions of a container in one of two directions.
The container says how a position advances and recedes; a cursor only
decides which of the two a step is. A reverse cursor is created one step
behind the position it is given, so that one created past the last element
stands on the last element; `base` undoes this offset.
-/

namespace OrdinalMap

set_option autoImplicit false

/-- Whether the elements that positions yield lie in the container or are
made on each access. -/
inductive Ownership where
  | collection
  | iterator
  deriving DecidableEq, Repr

def Ownership.text : Ownership → Text
  | collection => .word "CollectionOwned"
  | iterator => .word "IteratorOwned"

inductive Direction where
  | forward
  | reverse
  deriving DecidableEq, Repr

/-- How positions of type `π` move. Receding can fail, and then leaves the
position as it was. -/
structure Motion (π : Type) where
  advance : π → π
  recede : π → Except Fault π

structure Cursor (π : Type) (d : Direction) where
  position : π
  deriving DecidableEq, Repr

namespace Cursor

variable {π ρ : Type} {d : Direction}

def increment (m : Motion π) (c : Cursor π d) : Except Fault (Cursor π d) :=
  match d with
  | .forward => .ok ⟨m.advance c.position⟩
  | .reverse => (m.recede c.position).map (⟨·⟩)

def decrement (m : Motion π) (c : Cursor π d) : Except Fault (Cursor π d) :=
  match d with
  | .forward => (m.recede c.position).map (⟨·⟩)
  | .reverse => .ok ⟨m.advance c.position⟩

/-- The cursor at `p` if it moves forward, the one a step behind `p` if it
moves in reverse. -/
def ofPosition (m : Motion π) (p : π) : Except Fault (Cursor π d) :=
  match d with
  | .forward => .ok ⟨p⟩
  | .reverse => increment m (d := .reverse) ⟨p⟩

def postIncrement (m : Motion π) (c : Cursor π d) : Except Fault (Cursor π d × Cursor π d) :=
  (c.increment m).map fun moved => (c, moved)

def postDecrement (m : Motion π) (c : Cursor π d) : Except Fault (Cursor π d × Cursor π d) :=
  (c.decrement m).map fun moved => (c, moved)

/-- The forward cursor one past the element of a reverse cursor. -/
def base (m : Motion π) (c : Cursor π .reverse) : Cursor π .forward where
  position := m.advance c.position

def map (f : π → ρ) (c : Cursor π d) : Cursor ρ d where
  position := f c.position

def text (positionText : π → Text) (c : Cursor π d) : Text :=
  .record "BidirectionalIterator"
    [("provider", positionText c.position), ("reverse", .word (toString (d == .reverse)))]

end Cursor

end OrdinalMap
