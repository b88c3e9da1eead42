import OrdinalMap.Table.Copy

/-! # Building a table step by step

A builder collects pairs, of which the first for each key counts, and ends
as the table or gives out clones of it on the way.
-/

namespace OrdinalMap

set_option autoImplicit false

structure Builder {κ : Type} (D : Domain κ) (ν : Type) where
  table : Table D ν

namespace Builder

variable {κ ν : Type} {D : Domain κ}

def empty : Builder D ν := ⟨.empty⟩

def after {α : Type} (b : Builder D ν) (x : Action D ν α) : Except Fault (Builder D ν) :=
  match x b.table with
  | .ok _ t => .ok ⟨t⟩
  | .error e _ => .error e

def size (b : Builder D ν) : Nat := b.table.size

def isEmpty (b : Builder D ν) : Bool := b.table.isEmpty

def build (b : Builder D ν) : Table D ν := b.table

def snapshotWith {σ : Type} (copy : Copier σ ν) (s : σ) (b : Builder D ν) : Except Fault (Table D ν) :=
  b.table.cloneWith copy s

def snapshot (b : Builder D ν) : Except Fault (Table D ν) := b.snapshotWith .exact ()

inductive Step (κ ν : Type) where
  | insert (k : κ) (v : ν)
  | insertMany (pairs : List (κ × ν))

/-- What can be asked of a builder on the way: to take in pairs, or to give out a clone. -/
inductive Call (σ κ ν : Type) where
  | add (step : Step κ ν)
  | snapshot (s : σ)

/-- What a call shows of the builder: its size then, and the clone if one was asked for. -/
structure Stage {κ : Type} (D : Domain κ) (ν : Type) where
  size : Nat
  snapshot : Option (Table D ν) := none

variable [Disposal ν]

def insert (b : Builder D ν) (k : κ) (v : ν) : Except Fault (Builder D ν) := b.after (Table.insert k v)

def insertMany (b : Builder D ν) (pairs : List (κ × ν)) : Except Fault (Builder D ν) :=
  b.after (Table.insertMany pairs)

def perform : List (Step κ ν) → Builder D ν → Except Fault (Builder D ν)
  | [], b => .ok b
  | .insert k v :: steps, b => do perform steps (← b.insert k v)
  | .insertMany pairs :: steps, b => do perform steps (← b.insertMany pairs)

def Step.act : Step κ ν → Action D ν Unit
  | .insert k v => discard <| Table.insert k v
  | .insertMany pairs => Table.insertMany pairs

/-- The table that is left in the builder if one of the steps stops part way. -/
def unfinished : List (Step κ ν) → Builder D ν → List (Table D ν)
  | [], _ => []
  | step :: steps, b =>
    match step.act b.table with
    | .ok _ t => unfinished steps ⟨t⟩
    | .error _ t => [t]

def call {σ : Type} (copy : Copier σ ν) (b : Builder D ν) : Call σ κ ν → Except Fault (Stage D ν × Builder D ν)
  | .add step => do
    let b ← perform [step] b
    return ({ size := b.size }, b)
  | .snapshot s => do
    let t ← b.snapshotWith copy s
    return ({ size := b.size, snapshot := some t }, b)

def follow {σ : Type} (copy : Copier σ ν) :
    List (Call σ κ ν) → Builder D ν → Except Fault (List (Stage D ν) × Builder D ν)
  | [], b => .ok ([], b)
  | c :: cs, b => do
    let (stage, b) ← b.call copy c
    let (stages, b) ← follow copy cs b
    return (stage :: stages, b)

end Builder

end OrdinalMap
