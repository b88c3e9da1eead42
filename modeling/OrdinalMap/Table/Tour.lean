import OrdinalMap.Table.Erase

/-! # Tours

A tour is what is done with a cursor from the moment it is obtained. Its type
admits a step only where the cursor allows it: only a reverse cursor has a
base, only a writable one writes and can be turned into one that reads, and
only a reading one is copied on a step. A step that faults is passed over.
-/

namespace OrdinalMap

set_option autoImplicit false

/-- How a cursor is obtained from a table. Some of the ways change the table. -/
inductive Origin (κ ν : Type) : Access → Direction → Type 1
  | first {a : Access} : Origin κ ν a .forward
  | pastLast {a : Access} : Origin κ ν a .forward
  | last {a : Access} : Origin κ ν a .reverse
  | beforeFirst {a : Access} : Origin κ ν a .reverse
  | find {a : Access} (k : κ) : Origin κ ν a .forward
  | insert (k : κ) (v : ν) : Origin κ ν .writable .forward
  | assign (k : κ) (v : ν) : Origin κ ν .writable .forward
  | emplace {σ : Type} (k : κ) (make : σ → Except String ν × σ) (s : σ) : Origin κ ν .writable .forward
  | eraseAt (k : κ) : Origin κ ν .writable .forward

def Origin.obtain {κ ν : Type} {D : Domain κ} [Disposal ν] :
    {a : Access} → {d : Direction} → Origin κ ν a d → Action D ν (Position a d)
  | a, _, .first => Table.inspect fun t => t.first a
  | a, _, .pastLast => Table.inspect fun t => t.pastLast a
  | a, _, .last => Table.inspect fun t => t.last a
  | a, _, .beforeFirst => Table.inspect fun t => t.beforeFirst a
  | a, _, .find k => Table.inspect fun t => t.find a k
  | _, _, .insert k v => do return (← Table.insert k v).1
  | _, _, .assign k v => do return (← Table.assign k v).1
  | _, _, .emplace k make s => do
    return (← Table.emplace k (fun s => (raising (make s).1, (make s).2)) s).1
  | _, _, .eraseAt k => Table.eraseAt k

inductive Tour (ν : Type) : Access → Direction → Type
  | done {a : Access} {d : Direction} : Tour ν a d
  | increment {a : Access} {d : Direction} (rest : Tour ν a d) : Tour ν a d
  | decrement {a : Access} {d : Direction} (rest : Tour ν a d) : Tour ν a d
  | postIncrement {d : Direction} (rest : Tour ν .readOnly d) : Tour ν .readOnly d
  | postDecrement {d : Direction} (rest : Tour ν .readOnly d) : Tour ν .readOnly d
  | read {a : Access} {d : Direction} (rest : Tour ν a d) : Tour ν a d
  | modify {d : Direction} (f : ν → ν) (rest : Tour ν .writable d) : Tour ν .writable d
  | toReadOnly {d : Direction} (rest : Tour ν .readOnly d) : Tour ν .writable d
  | base {a : Access} (rest : Tour ν a .forward) : Tour ν a .reverse

/-- What a step of a tour shows: the index of the cursor after a move, its
indices before and after a move that copies it, or an entry. -/
inductive Sight (κ ν : Type) where
  | moved (index : Nat)
  | copied (before after : Nat)
  | entry (e : Entry κ ν)
  deriving DecidableEq, Repr

namespace Tour

variable {κ ν : Type} {D : Domain κ}

/-- What a move shows, and the cursor after it, which is where it was if the
move faults. -/
def settle {a : Access} {d : Direction} (p : Position a d) :
    Except Fault (Position a d) → Except Fault (Sight κ ν) × Position a d
  | .ok q => (.ok (.moved q.position.index), q)
  | .error f => (.error f, p)

/-- The same for a move that also gives the cursor as it was before. -/
def settleCopied {a : Access} {d : Direction} (p : Position a d) :
    Except Fault (Position a d × Position a d) → Except Fault (Sight κ ν) × Position a d
  | .ok (old, q) => (.ok (.copied old.position.index q.position.index), q)
  | .error f => (.error f, p)

def run : {a : Access} → {d : Direction} → Tour ν a d → Position a d → Table D ν →
    List (Except Fault (Sight κ ν)) × Table D ν
  | _, _, .done, _, t => ([], t)
  | a, _, .increment rest, p, t =>
    let (seen, p) := settle p (p.increment (t.motion a))
    let (more, t) := run rest p t
    (seen :: more, t)
  | a, _, .decrement rest, p, t =>
    let (seen, p) := settle p (p.decrement (t.motion a))
    let (more, t) := run rest p t
    (seen :: more, t)
  | .readOnly, _, .postIncrement rest, p, t =>
    let (seen, p) := settleCopied p (p.postIncrement (t.motion .readOnly))
    let (more, t) := run rest p t
    (seen :: more, t)
  | .readOnly, _, .postDecrement rest, p, t =>
    let (seen, p) := settleCopied p (p.postDecrement (t.motion .readOnly))
    let (more, t) := run rest p t
    (seen :: more, t)
  | _, _, .read rest, p, t =>
    let (e, p) := t.entry p
    let (more, t) := run rest p t
    (e.map .entry :: more, t)
  | _, _, .modify f rest, p, t =>
    match Table.modifyEntry p f t with
    | .ok e t =>
      let (more, t) := run rest (p.map Skip.seek) t
      (.ok (.entry e) :: more, t)
    | .error e t =>
      let (more, t) := run rest (p.map Skip.seek) t
      (.error e :: more, t)
  | _, _, .toReadOnly rest, p, t => run rest p.toReadOnly t
  | a, _, .base rest, p, t =>
    let p := Cursor.base (t.motion a) p
    let (more, t) := run rest p t
    (.ok (.moved p.position.index) :: more, t)

/-- A cursor with its access and direction, which a tour may change. -/
structure Arrival where
  {access : Access}
  {direction : Direction}
  cursor : Position access direction

/-- Where the cursor is after a tour. -/
def arrival : {a : Access} → {d : Direction} → Tour ν a d → Position a d → Table D ν → Arrival
  | _, _, .done, p, _ => ⟨p⟩
  | a, _, .increment rest, p, t => arrival rest (settle (κ := κ) (ν := ν) p (p.increment (t.motion a))).2 t
  | a, _, .decrement rest, p, t => arrival rest (settle (κ := κ) (ν := ν) p (p.decrement (t.motion a))).2 t
  | .readOnly, _, .postIncrement rest, p, t =>
    arrival rest (settleCopied (κ := κ) (ν := ν) p (p.postIncrement (t.motion .readOnly))).2 t
  | .readOnly, _, .postDecrement rest, p, t =>
    arrival rest (settleCopied (κ := κ) (ν := ν) p (p.postDecrement (t.motion .readOnly))).2 t
  | _, _, .read rest, p, t => arrival rest (t.entry p).2 t
  | _, _, .modify f rest, p, t =>
    match Table.modifyEntry p f t with
    | .ok _ t => arrival rest (p.map Skip.seek) t
    | .error _ t => arrival rest (p.map Skip.seek) t
  | _, _, .toReadOnly rest, p, t => arrival rest p.toReadOnly t
  | a, _, .base rest, p, t => arrival rest (Cursor.base (t.motion a) p) t

end Tour

end OrdinalMap
