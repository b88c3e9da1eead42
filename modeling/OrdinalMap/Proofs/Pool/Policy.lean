import OrdinalMap.Proofs.Table.Complete
import OrdinalMap.Pool

/-! # Programs under other policies

A policy is asked only when a requirement has failed, and then the operation ends
with its answer. A program in which every policy is replaced by another therefore
does the same to its tables, and its replies differ in such answers only.
-/

namespace OrdinalMap

set_option autoImplicit false

variable {κ ν α : Type} {D : Domain κ} (g : Policy → Policy)

def KeyOperation.under : KeyOperation κ ν α → KeyOperation κ ν α
  | .modifyRequired P site k f => .modifyRequired (g P) site k f
  | op => op

def Operation.under : Operation κ ν α → Operation κ ν α
  | .keyed op => .keyed (op.under g)
  | .require P site k => .require (g P) site k
  | op => op

def Making.under : Making κ ν → Making κ ν
  | .complete P site pairs => .complete (g P) site pairs
  | made => made

/-- The command with every policy in it replaced. -/
def Command.under : Command κ ν → Command κ ν
  | .call r op => .call r (op.under g)
  | .make r made => .make r (made.under g)
  | c => c

/-- The second reply is the first one, or both are what the policy and its
replacement answer to the same failed requirement. -/
inductive Reply.Under : Reply → Reply → Prop
  | same (r : Reply) : Under r r
  | refused (P : Policy) (site : String) (e : CheckError) (caught : List Fault) :
    Under { result := .error (.refused (P.refuse site e)), caught }
      { result := .error (.refused ((g P).refuse site e)), caught }

variable {g} in
theorem Reply.Under.adding {r r' : Reply} (h : r.Under g r') (fs : List Fault) :
    Reply.Under g { r with caught := fs ++ r.caught } { r' with caught := fs ++ r'.caught } := by
  cases h with
  | same r => exact .same _
  | refused P site e caught => exact .refused P site e _

namespace Table

variable {t : Table D ν} {k : κ}

theorem modifyRequired_of_contains (h : t.contains k = true) (P : Policy) (site : String) (f : ν → ν) :
    modifyRequired P site k f t = modifyAt (D.ordinal k) f t := by
  change (if t.contains k = true then modifyAt (D.ordinal k) f else throw _ >>= fun _ => modifyAt _ f) t = _
  rw [if_pos h]

theorem modifyRequired_of_vacant (h : t.contains k = false) (P : Policy) (site : String) (f : ν → ν) :
    modifyRequired P site k f t = .error (t.absent P site k) t := by
  change (if t.contains k = true then modifyAt (D.ordinal k) f else throw _ >>= fun _ => modifyAt _ f) t = _
  rw [if_neg (by rw [h]; exact nofun)]
  rfl

theorem require_of_contains (h : t.contains k = true) (P : Policy) (site : String) :
    t.require P site k = t.valueAt (D.ordinal k) := if_pos h

theorem require_of_vacant (h : t.contains k = false) (P : Policy) (site : String) :
    t.require P site k = .error (t.absent P site k) := by
  rw [require, h]
  rfl

end Table

namespace Pool

variable [Disposal ν]

theorem act_keyed_under (P : Pool D ν) (r : Nat) (op : KeyOperation κ ν α) :
    Reply.Under g (P.act (.call r (.keyed op))).1 (P.act (.call r (.keyed (op.under g)))).1 ∧
      (P.act (.call r (.keyed (op.under g)))).2 = (P.act (.call r (.keyed op))).2 := by
  cases op with
  | modifyRequired Q site k f =>
    simp only [KeyOperation.under, Pool.act, Operation.run, KeyOperation.run]
    cases hk : (P r).contains k with
    | true =>
      rw [Table.modifyRequired_of_contains hk, Table.modifyRequired_of_contains hk]
      exact ⟨.same _, rfl⟩
    | false =>
      rw [Table.modifyRequired_of_vacant hk, Table.modifyRequired_of_vacant hk]
      exact ⟨.refused Q site _ _, rfl⟩
  | _ => exact ⟨.same _, rfl⟩

theorem act_call_under (P : Pool D ν) (r : Nat) (op : Operation κ ν α) :
    Reply.Under g (P.act (.call r op)).1 (P.act (.call r (op.under g))).1 ∧
      (P.act (.call r (op.under g))).2 = (P.act (.call r op)).2 := by
  cases op with
  | keyed op => exact P.act_keyed_under g r op
  | require Q site k =>
    simp only [Operation.under, Pool.act, Operation.run, Table.inspect]
    cases hk : (P r).contains k with
    | true =>
      rw [Table.require_of_contains hk, Table.require_of_contains hk]
      exact ⟨.same _, rfl⟩
    | false =>
      rw [Table.require_of_vacant hk, Table.require_of_vacant hk]
      exact ⟨.refused Q site _ _, rfl⟩
  | _ => exact ⟨.same _, rfl⟩

theorem act_make_under (P : Pool D ν) (r : Nat) (made : Making κ ν) :
    Reply.Under g (P.act (.make r made)).1 (P.act (.make r (made.under g))).1 ∧
      (P.act (.make r (made.under g))).2 = (P.act (.make r made)).2 := by
  cases made with
  | complete Q site pairs =>
    rw [Making.under, Pool.act, Pool.act, Making.run, Making.run, (Table.complete_eq_answer Q site pairs).2,
      (Table.complete_eq_answer (g Q) site pairs).2]
    obtain f | e | t := (Table.tryComplete pairs : Intake (Except CheckError (Table D ν))).result
    · exact ⟨.same _, rfl⟩
    · exact ⟨.refused Q site e _, rfl⟩
    · exact ⟨.same _, rfl⟩
  | _ => exact ⟨.same _, rfl⟩

theorem act_under (P : Pool D ν) (c : Command κ ν) :
    Reply.Under g (P.act c).1 (P.act (c.under g)).1 ∧ (P.act (c.under g)).2 = (P.act c).2 := by
  cases c with
  | call r op => exact P.act_call_under g r op
  | make r made => exact P.act_make_under g r made
  | _ => exact ⟨.same _, rfl⟩

/-- Which tables end does not depend on what a policy answers. -/
theorem ending_under (P : Pool D ν) (c : Command κ ν) : P.ending (c.under g) = P.ending c := by
  cases c with
  | make r made =>
    cases made with
    | complete Q site pairs =>
      rw [Command.under, Making.under, Pool.ending, Pool.ending, Making.run, Making.run,
        (Table.complete_eq_answer Q site pairs).2, (Table.complete_eq_answer (g Q) site pairs).2]
      obtain f | e | t := (Table.tryComplete pairs : Intake (Except CheckError (Table D ν))).result
      · rfl
      · rfl
      · rfl
    | _ => rfl
  | _ => rfl

theorem step_under (P : Pool D ν) (c : Command κ ν) :
    Reply.Under g (P.step c).1 (P.step (c.under g)).1 ∧ (P.step (c.under g)).2 = (P.step c).2 := by
  obtain ⟨hReply, hNext⟩ := P.act_under g c
  refine ⟨?_, hNext⟩
  rw [step_reply, step_reply, P.ending_under g c]
  exact hReply.adding _

theorem run_under (P : Pool D ν) (cs : List (Command κ ν)) :
    List.Forall₂ (Reply.Under g) (Pool.run cs P).1 (Pool.run (cs.map (Command.under g)) P).1 ∧
      (Pool.run (cs.map (Command.under g)) P).2 = (Pool.run cs P).2 := by
  induction cs generalizing P with
  | nil => exact ⟨.nil, rfl⟩
  | cons c cs ih =>
    obtain ⟨hReply, hNext⟩ := P.step_under g c
    obtain ⟨hReplies, hLast⟩ := ih (P.step c).2
    rw [List.map_cons, run_cons, run_cons, hNext]
    exact ⟨.cons hReply hReplies, hLast⟩

end Pool

end OrdinalMap
