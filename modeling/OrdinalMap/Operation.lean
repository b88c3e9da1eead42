import OrdinalMap.Table.Copy
import OrdinalMap.Table.Loan
import OrdinalMap.Table.Text
import OrdinalMap.Table.Tour

/-! # Operations on a table

Each operation that a table offers to its owner as a term, indexed by the type
of its result, and the action that it stands for. Functions that the owner
passes in may keep a state and may stop with a message of their own.
-/

namespace OrdinalMap

set_option autoImplicit false

inductive KeyOperation (κ ν : Type) : Type → Type 1
  | insert (k : κ) (v : ν) : KeyOperation κ ν (Position .writable .forward × Bool)
  | assign (k : κ) (v : ν) : KeyOperation κ ν (Position .writable .forward × Bool)
  | emplace {σ : Type} (k : κ) (make : σ → Except String ν × σ) (s : σ) :
    KeyOperation κ ν (Position .writable .forward × Bool × σ)
  | modifyOrInsert (k : κ) (initial : ν) (f : ν → ν) : KeyOperation κ ν ν
  | modify? (k : κ) (f : ν → ν) : KeyOperation κ ν (Option ν)
  | modifyRequired (P : Policy) (site : String) (k : κ) (f : ν → ν) : KeyOperation κ ν ν
  | insertMany (pairs : List (κ × ν)) : KeyOperation κ ν Unit
  | erase (k : κ) : KeyOperation κ ν Nat
  | eraseAt (k : κ) : KeyOperation κ ν (Position .writable .forward)
  | take? (k : κ) : KeyOperation κ ν (Option ν)
  | takePair? (k : κ) : KeyOperation κ ν (Option (κ × ν))
  | clear : KeyOperation κ ν Unit

def KeyOperation.run {κ ν α : Type} {D : Domain κ} [Disposal ν] : KeyOperation κ ν α → Action D ν α
  | .insert k v => Table.insert k v
  | .assign k v => Table.assign k v
  | .emplace k make s => Table.emplace k (fun s => (raising (make s).1, (make s).2)) s
  | .modifyOrInsert k initial f => Table.modifyOrInsert k initial f
  | .modify? k f => Table.modify? k f
  | .modifyRequired P site k f => Table.modifyRequired P site k f
  | .insertMany pairs => Table.insertMany pairs
  | .erase k => Table.erase k
  | .eraseAt k => Table.eraseAt k
  | .take? k => Table.take? k
  | .takePair? k => Table.takeEntry? k
  | .clear => Table.clear

/-- Operations on one table. A tour, a walk and a loan go on after a fault, so
their results contain the faults met on the way. -/
inductive Operation (κ ν : Type) : Type → Type 1
  | keyed {α : Type} (op : KeyOperation κ ν α) : Operation κ ν α
  | eraseRange (lower upper : Bound κ) : Operation κ ν Nat
  | retain {σ : Type} (keep : σ → κ → ν → Except String Bool × ν × σ) (s : σ) : Operation κ ν σ
  | eraseIf {σ : Type} (test : σ → κ → ν → Except String Bool × σ) (s : σ) : Operation κ ν (Nat × σ)
  | size : Operation κ ν Nat
  | isEmpty : Operation κ ν Bool
  | contains (k : κ) : Operation κ ν Bool
  | multiplicity (k : κ) : Operation κ ν Nat
  | get? (k : κ) : Operation κ ν (Option ν)
  | require (P : Policy) (site : String) (k : κ) : Operation κ ν ν
  | entries : Operation κ ν (List (Entry κ ν))
  | record (tokens : ν → Except String (List Token)) : Operation κ ν (List Token)
  | text (key : κ → Except String Text) (value : ν → Except String Text) : Operation κ ν Text
  | tour {a : Access} {d : Direction} (origin : Origin κ ν a d) (steps : Tour ν a d) :
    Operation κ ν (List (Except Fault (Sight κ ν)))
  | walk (a : Access) (es : List End) : Operation κ ν (List (Except Fault (Option (Entry κ ν))))
  | lend (cs : List (LoanCall ν)) : Operation κ ν (List (Except Fault (Option (Entry κ ν))))

namespace Operation

variable {κ ν α : Type} {D : Domain κ}

def recordWith (tokens : ν → Except String (List Token)) (t : Table D ν) : Except Fault (List Token) :=
  haveI : Recordable ν := ⟨fun v => raising (tokens v)⟩
  t.record

def textWith (key : κ → Except String Text) (value : ν → Except String Text) (t : Table D ν) :
    Except Fault Text :=
  haveI : Textual κ := ⟨fun k => raising (key k)⟩
  haveI : Textual ν := ⟨fun v => raising (value v)⟩
  t.text

def walkOver (a : Access) (es : List End) (t : Table D ν) :
    Except Fault (List (Except Fault (Option (Entry κ ν)))) := do
  return ((Walk.ends t).run es (← Walk.ofTable a t)).1

/-- Obtains a cursor, which may change the table, and goes on a tour from it. -/
def tourFrom [Disposal ν] {a : Access} {d : Direction} (origin : Origin κ ν a d) (steps : Tour ν a d) :
    Action D ν (List (Except Fault (Sight κ ν))) := do
  let p ← origin.obtain
  fun t => .ok (steps.run p t).1 (steps.run p t).2

def run [Disposal ν] : Operation κ ν α → Action D ν α
  | .keyed op => op.run
  | .eraseRange lower upper => Table.eraseRange lower upper
  | .retain keep s => Table.retain (fun s k v => (raising (keep s k v).1, (keep s k v).2)) s
  | .eraseIf test s => Table.eraseIf (fun s k v => (raising (test s k v).1, (test s k v).2)) s
  | .size => Table.inspect fun t => .ok t.size
  | .isEmpty => Table.inspect fun t => .ok t.isEmpty
  | .contains k => Table.inspect fun t => .ok (t.contains k)
  | .multiplicity k => Table.inspect fun t => .ok (t.multiplicity k)
  | .get? k => Table.inspect fun t => t.get? k
  | .require P site k => Table.inspect fun t => t.require P site k
  | .entries => Table.inspect fun t => t.entries
  | .record tokens => Table.inspect fun t => recordWith tokens t
  | .text key value => Table.inspect fun t => textWith key value t
  | .tour origin steps => tourFrom origin steps
  | .walk a es => Table.inspect fun t => walkOver a es t
  | .lend cs => Table.lend cs

def faultsIn {β : Type} (rs : List (Except Fault β)) : List Fault :=
  rs.filterMap fun
    | .ok _ => none
    | .error f => some f

/-- The faults that the operation met without ending by them. -/
def caught : Operation κ ν α → α → List Fault
  | .tour .., seen => faultsIn seen
  | .walk .., rs => faultsIn rs
  | .lend .., rs => faultsIn rs
  | _, _ => []

end Operation

end OrdinalMap
