import OrdinalMap.Table.Insert

/-! # Complete tables

A complete table has an entry for every key, made from pairs that name each
key exactly once. The pairs may come without end: taking them stops at the
first repeated key, and there are only finitely many keys.
-/

namespace OrdinalMap

set_option autoImplicit false

/-- What came of taking pairs: the result, how many pairs were taken, and
what was logged. -/
structure Intake (α : Type) where
  result : Except Fault α
  taken : Nat
  log : List LogLine := []

namespace Table

variable {κ ν : Type} {D : Domain κ}

/-- Why no more pairs are taken: there are none, the last one repeats the
key with this ordinal, or inserting it faulted. -/
inductive Fill where
  | exhausted
  | repeated (ordinal : Nat)
  | faulted (fault : Fault)
  deriving DecidableEq, Repr

/-- Each pair taken either enters an ordinal that the occupancy has room for
or is the last one, so one pair more than the capacity is never needed. -/
def fillLimit (D : Domain κ) : Nat := D.capacity + 1

variable [Disposal ν]

/-- Takes up to `limit` pairs, `taken` of which are in the table already. -/
def fill (pairs : Nat → Option (κ × ν)) : (limit taken : Nat) → Table D ν → Fill × Nat × Table D ν
  | 0, taken, t => (.exhausted, taken, t)
  | limit + 1, taken, t =>
    match pairs taken with
    | none => (.exhausted, taken, t)
    | some (k, v) =>
      match constructNew (D.ordinal k) v t with
      | .ok true t => fill pairs limit (taken + 1) t
      | .ok false t => (.repeated (D.ordinal k), taken + 1, t)
      | .error e t => (.faulted e, taken + 1, t)

/-- The complete table of a sequence of pairs, or what is wrong with them. A
fault of an insertion is not a failed requirement and comes out as it is. -/
def tryComplete (pairs : Nat → Option (κ × ν)) : Intake (Except CheckError (Table D ν)) :=
  match fill pairs (fillLimit D) 0 empty with
  | (.faulted e, taken, _) => { result := .error e, taken }
  | (.repeated i, taken, _) =>
    { result := .ok (.error .duplicateEntries), taken
      log := [⟨.trace, "duplicate entry for ordinal " ++ toString i⟩] }
  | (.exhausted, taken, t) =>
    if t.size = D.count then { result := .ok (.ok t), taken } else
    { result := .ok (.error .missingEntries), taken
      log := [⟨.trace, toString t.size ++ " of " ++ toString D.count ++ " entries present"⟩] }

/-- The complete table of a sequence of pairs. A policy answers for pairs
that repeat a key or leave one out. -/
def complete (P : Policy) (site : String) (pairs : Nat → Option (κ × ν)) : Intake (Table D ν) :=
  match fill pairs (fillLimit D) 0 empty with
  | (.faulted e, taken, _) => { result := .error e, taken }
  | (.repeated _, taken, _) => { result := .error (.refused (P.refuse site .duplicateEntries)), taken }
  | (.exhausted, taken, t) =>
    if t.size = D.count then { result := .ok t, taken } else
    { result := .error (.refused (P.refuse site .missingEntries)), taken }

/-- The table that is left if the pairs do not make a complete one. -/
def incomplete (pairs : Nat → Option (κ × ν)) : List (Table D ν) :=
  match (tryComplete pairs : Intake (Except CheckError (Table D ν))).result with
  | .ok (.ok _) => []
  | _ => [(fill pairs (fillLimit D) 0 empty).2.2]

end Table

end OrdinalMap
