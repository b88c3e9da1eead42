import OrdinalMap.Builder
import OrdinalMap.Operation
import OrdinalMap.Table.Complete

/-! # Pools of tables

A program works on numbered tables over one domain, all empty at first. A
command operates on one of them, makes a new one, or involves two. A command
that faults keeps what it did, and the program goes on.

Tables end, too: one that another takes the place of, one that was drained, and
one that was left unfinished when making it stopped. Their values are given up
with them, and what faults there are is part of the reply.
-/

namespace OrdinalMap

set_option autoImplicit false

inductive Making (κ ν : Type) : Type 1
  | empty
  | fresh
  | ofKeys {σ : Type} (copy : σ → ν → Except String ν × σ) (s : σ) (keys : List κ) (v : ν)
  | ofList (pairs : List (κ × ν))
  | tryComplete (pairs : Nat → Option (κ × ν))
  | complete (P : Policy) (site : String) (pairs : Nat → Option (κ × ν))
  | build (steps : List (Builder.Step κ ν))
  | snapshot {σ : Type} (steps : List (Builder.Step κ ν)) (copy : σ → ν → Except String ν × σ) (s : σ)

def copierOf {σ ν : Type} (copy : σ → ν → Except String ν × σ) : Copier σ ν :=
  fun s v => (raising (copy s v).1, (copy s v).2)

/-- The table made, or what was wrong with the pairs for it. -/
def Making.run {κ ν : Type} {D : Domain κ} [Disposal ν] : Making κ ν → Except Fault (Except CheckError (Table D ν))
  | .empty => .ok (.ok .empty)
  | .fresh => Table.fresh.map .ok
  | .ofKeys copy s keys v => (Table.ofKeysWith (copierOf copy) s keys v).map .ok
  | .ofList pairs => (Table.ofList pairs).map .ok
  | .tryComplete pairs => (Table.tryComplete pairs).result
  | .complete P site pairs => (Table.complete P site pairs).result.map .ok
  | .build steps => (Builder.perform steps .empty).map fun b => .ok b.build
  | .snapshot steps copy s => do
    let b : Builder D ν ← Builder.perform steps .empty
    return .ok (← b.snapshotWith (copierOf copy) s)

/-- The tables that making one leaves behind: those that are not finished, and that of
a builder which gave out a clone. -/
def Making.leaves {κ ν : Type} {D : Domain κ} [Disposal ν] : Making κ ν → List (Table D ν)
  | .empty => []
  | .fresh => []
  | .ofKeys copy s keys v => Table.unfinished (Table.assignCopies (copierOf copy) s keys v)
  | .ofList pairs => Table.unfinished (Table.insertMany pairs)
  | .tryComplete pairs => Table.incomplete pairs
  | .complete _ _ pairs => Table.incomplete pairs
  | .build steps => Builder.unfinished steps .empty
  | .snapshot steps copy s =>
    match Builder.perform steps (.empty : Builder D ν) with
    | .ok b => b.table :: Table.unfinished (Table.constructCopies (copierOf copy) s b.table)
    | .error _ => Builder.unfinished steps .empty

inductive Command (κ ν : Type) : Type 1
  | call {α : Type} (r : Nat) (op : Operation κ ν α)
  | make (r : Nat) (made : Making κ ν)
  | equal (r r' : Nat) (same : ν → ν → Bool)
  | clone {σ : Type} (source target : Nat) (copy : σ → ν → Except String ν × σ) (s : σ)
  | cloneFrom {σ : Type} (source target : Nat) (copy : σ → ν → Except String ν × σ) (s : σ)
  | copied (source target : Nat)
  | takeAll (source target : Nat)
  | exchange (r r' : Nat)
  | drain (r : Nat) (es : List End)

/-- What a command returns, and the faults that it met without ending by them. -/
structure Reply where
  result : Except Fault (Σ α : Type, α)
  caught : List Fault := []

def Reply.faults (r : Reply) : List Fault :=
  match r.result with
  | .ok _ => r.caught
  | .error f => f :: r.caught

abbrev Pool {κ : Type} (D : Domain κ) (ν : Type) : Type := Nat → Table D ν

namespace Pool

variable {κ ν : Type} {D : Domain κ}

def start : Pool D ν := fun _ => .empty

def put (r : Nat) (t : Table D ν) (P : Pool D ν) : Pool D ν := fun i => if i = r then t else P i

def putMade (r : Nat) (P : Pool D ν) : Except Fault (Table D ν) → Reply × Pool D ν
  | .ok t => ({ result := .ok ⟨Unit, ()⟩ }, P.put r t)
  | .error f => ({ result := .error f }, P)

def putResult {α : Type} (r : Nat) (caught : α → List Fault) (P : Pool D ν) :
    EStateM.Result Fault (Table D ν) α → Reply × Pool D ν
  | .ok a t => ({ result := .ok ⟨α, a⟩, caught := caught a }, P.put r t)
  | .error f t => ({ result := .error f }, P.put r t)

variable [Disposal ν]

/-- What the command does to the tables that stay. -/
def act (P : Pool D ν) : Command κ ν → Reply × Pool D ν
  | .call r op => P.putResult r op.caught (op.run (P r))
  | .make r made =>
    match made.run with
    | .ok (.ok t) => P.putMade r (.ok t)
    | .ok (.error e) => ({ result := .ok ⟨CheckError, e⟩ }, P)
    | .error f => P.putMade r (.error f)
  | .equal r r' same =>
    haveI : BEq ν := ⟨same⟩
    match (P r).equal (P r') with
    | .ok b => ({ result := .ok ⟨Bool, b⟩ }, P)
    | .error f => ({ result := .error f }, P)
  | .clone source target copy s => P.putMade target ((P source).cloneWith (copierOf copy) s)
  | .cloneFrom source target copy s =>
    P.putResult target (fun _ => []) (Table.cloneFromWith (copierOf copy) s (P source) (P target))
  | .copied source target => P.putMade target (.ok (P source).copied)
  | .takeAll source target =>
    match Table.takeAll (P source) with
    | .ok t left => (P.put source left).putMade target (.ok t)
    | .error f left => ({ result := .error f }, P.put source left)
  | .exchange r r' => ({ result := .ok ⟨Unit, ()⟩ }, (P.put r (P r')).put r' (P r))
  | .drain r es =>
    let (rs, _) := Drain.ends.run es (Drain.ofTable (P r))
    ({ result := .ok ⟨_, rs⟩, caught := Operation.faultsIn rs }, P.put r .empty)

/-- The tables that end with the command, as they are when they are given up. -/
def ending (P : Pool D ν) : Command κ ν → List (Table D ν)
  | .make r made =>
    match (made.run : Except Fault (Except CheckError (Table D ν))) with
    | .ok (.ok _) => P r :: made.leaves
    | _ => made.leaves
  | .clone source target copy s =>
    match (P source).cloneWith (copierOf copy) s with
    | .ok _ => [P target]
    | .error _ => Table.unfinished (Table.constructCopies (copierOf copy) s (P source))
  | .copied _ target => [P target]
  | .takeAll source target =>
    match Table.takeAll (P source) with
    | .ok _ left => [P.put source left target]
    | .error .. => []
  | .drain r es => [(Drain.ends.run es (Drain.ofTable (P r))).2.table]
  | _ => []

def step (P : Pool D ν) (c : Command κ ν) : Reply × Pool D ν :=
  let (reply, P') := P.act c
  ({ reply with caught := (P.ending c).flatMap Table.lastFaults ++ reply.caught }, P')

def run : List (Command κ ν) → Pool D ν → List Reply × Pool D ν
  | [], P => ([], P)
  | c :: cs, P =>
    let (reply, P) := P.step c
    let (replies, P) := run cs P
    (reply :: replies, P)

theorem run_cons (c : Command κ ν) (cs : List (Command κ ν)) (P : Pool D ν) :
    run (c :: cs) P = ((P.step c).1 :: (run cs (P.step c).2).1, (run cs (P.step c).2).2) := rfl

theorem step_reply (P : Pool D ν) (c : Command κ ν) :
    (P.step c).1 =
      { (P.act c).1 with caught := (P.ending c).flatMap Table.lastFaults ++ (P.act c).1.caught } := rfl

/-- No table ends with an operation on one. -/
theorem step_call {α : Type} (P : Pool D ν) (r : Nat) (op : Operation κ ν α) :
    P.step (.call r op) = P.act (.call r op) := rfl

/-- The tables of the pool, those that one more command ends, and what is left of these. -/
inductive Occurs (P : Pool D ν) : Table D ν → Prop
  | kept (r : Nat) : Occurs P (P r)
  | ending (c : Command κ ν) {t : Table D ν} (h : t ∈ P.ending c) : Occurs P t
  | remnant (c : Command κ ν) {t : Table D ν} (h : t ∈ P.ending c) : Occurs P t.remnant

end Pool

/-- The table is one that some program has in its pool at its end, whatever came of
giving up values on the way. -/
def Table.Reachable {κ ν : Type} {D : Domain κ} (t : Table D ν) : Prop :=
  ∃ (_ : Disposal ν) (cs : List (Command κ ν)) (r : Nat), (Pool.run cs .start).2 r = t

end OrdinalMap
