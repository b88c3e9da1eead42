import OrdinalMap.Skip

/-! # Courses

A course tries commands on a state, one after the other, and keeps what each of
them gives. It goes on after a fault. The commands here are the changes of a
bitmap, the steps of a position, and the moves of a cursor; all of them leave the
state as it was if they fault.
-/

namespace OrdinalMap

set_option autoImplicit false

variable {σ τ α π : Type}

def change (f : σ → Except Fault σ) : EStateM Fault σ Unit := fun s =>
  match f s with
  | .ok u => .ok () u
  | .error e => .error e s

def course (act : τ → EStateM Fault σ α) : List τ → σ → List (Except Fault α) × σ
  | [], s => ([], s)
  | c :: cs, s =>
    match act c s with
    | .ok a s => let (rest, s) := course act cs s; (.ok a :: rest, s)
    | .error f s => let (rest, s) := course act cs s; (.error f :: rest, s)

inductive Bitmap.Change where
  | insert (i : Nat)
  | erase (i : Nat)
  | clear
  | reset
  deriving DecidableEq, Repr

def Bitmap.Change.act {n : Nat} : Bitmap.Change → EStateM Fault (Bitmap n) Unit
  | insert i => OrdinalMap.change (·.insert i)
  | erase i => OrdinalMap.change (·.erase i)
  | clear => modify Bitmap.clear
  | reset => set (Bitmap.empty : Bitmap n)

inductive Step where
  | advance
  | recede
  deriving DecidableEq, Repr

def Motion.act (m : Motion π) : Step → EStateM Fault π Unit
  | .advance => modify m.advance
  | .recede => change m.recede

inductive Move where
  | increment
  | decrement
  deriving DecidableEq, Repr

/-- The step that a move is, for the position of a cursor of this direction. -/
def Move.step : Direction → Move → Step
  | .forward, increment => .advance
  | .forward, decrement => .recede
  | .reverse, increment => .recede
  | .reverse, decrement => .advance

def Cursor.move {d : Direction} (m : Motion π) : Move → Cursor π d → Except Fault (Cursor π d)
  | .increment => (·.increment m)
  | .decrement => (·.decrement m)

/-- A move that also gives the cursor as it was before. -/
def Cursor.moveCopied {d : Direction} (m : Motion π) : Move → Cursor π d → Except Fault (Cursor π d × Cursor π d)
  | .increment => (·.postIncrement m)
  | .decrement => (·.postDecrement m)

def Cursor.act {d : Direction} (m : Motion π) (mv : Move) : EStateM Fault (Cursor π d) Unit :=
  change (Cursor.move m mv)

theorem Cursor.move_eq {d : Direction} (m : Motion π) (mv : Move) (c : Cursor π d) :
    Cursor.move m mv c = match mv.step d with
      | .advance => .ok ⟨m.advance c.position⟩
      | .recede => (m.recede c.position).map (⟨·⟩) := by
  cases d <;> cases mv <;> rfl

theorem Cursor.moveCopied_eq {d : Direction} (m : Motion π) (mv : Move) (c : Cursor π d) :
    Cursor.moveCopied m mv c = (Cursor.move m mv c).map fun moved => (c, moved) := by
  cases mv <;> rfl

/-- Where a position is created: at an index, or at the first selected one from an
index on. -/
inductive Placement where
  | exactly (index : Nat)
  | firstFrom (start : Nat)
  deriving DecidableEq, Repr

namespace Placement

variable {a : Access}

def locate (sel : Selection) (stop : Nat) : Placement → Except Fault (Skip a)
  | exactly index => Skip.ofIndex index stop
  | firstFrom start => Skip.firstFrom sel start stop

def cursor {d : Direction} (sel : Selection) (stop : Nat) (place : Placement) :
    Except Fault (Cursor (Skip a) d) := do
  Cursor.ofPosition (Skip.motion sel) (← place.locate sel stop)

end Placement

end OrdinalMap
