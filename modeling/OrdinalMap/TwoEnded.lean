import OrdinalMap.Fault

/-! # Sources consumed from both ends

A source yields elements from its front and from its back until none is
left. A pull that faults keeps what it did to the source. `drain` pulls from
one end until nothing comes; `run` follows a schedule of pulls and goes on
after a fault.
-/

namespace OrdinalMap

set_option autoImplicit false

inductive End where
  | front
  | back
  deriving DecidableEq, Repr

/-- How elements are pulled out of a source with state `σ`. `remaining` tells
how many there are still. -/
structure TwoEnded (σ α : Type) where
  next : EStateM Fault σ (Option α)
  nextBack : EStateM Fault σ (Option α)
  remaining : σ → Nat

namespace TwoEnded

variable {σ α : Type}

def pull (x : TwoEnded σ α) : End → EStateM Fault σ (Option α)
  | .front => x.next
  | .back => x.nextBack

def collect (x : TwoEnded σ α) (e : End) : (limit : Nat) → EStateM Fault σ (List α)
  | 0 => return []
  | limit + 1 => do
    match ← x.pull e with
    | none => return []
    | some a => return a :: (← x.collect e limit)

/-- All elements that remain, from one end. One pull more than there are
elements finds the source empty. -/
def drain (x : TwoEnded σ α) (e : End) : EStateM Fault σ (List α) := do
  x.collect e (x.remaining (← get) + 1)

/-- What each pull of a schedule gives, and the source after them. -/
def run (x : TwoEnded σ α) : List End → σ → List (Except Fault (Option α)) × σ
  | [], s => ([], s)
  | e :: es, s =>
    match x.pull e s with
    | .ok a s => let (rest, s) := x.run es s; (.ok a :: rest, s)
    | .error f s => let (rest, s) := x.run es s; (.error f :: rest, s)

end TwoEnded

end OrdinalMap
