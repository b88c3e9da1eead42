import OrdinalMap.Proofs.Table.BlindWalk
import OrdinalMap.Pool

/-! # Programs cannot tell alike tables apart

Whatever a program does with its tables: if each of them is replaced by an alike one,
every reply stays the same and the tables in the end are alike again. This holds on
every domain and from every pool, whether or not its tables are sound.
-/

namespace OrdinalMap

set_option autoImplicit false

variable {κ ν α : Type} {D : Domain κ} {t u : Table D ν}

namespace Operation

theorem blind_tourFrom [Disposal ν] {a : Access} {d : Direction} (origin : Origin κ ν a d) (steps : Tour ν a d) :
    Table.Blind (tourFrom origin steps : Action D ν _) :=
  fun t u h => (origin.blind_obtain t u h).bind fun p _ _ h => steps.run_alike p h

theorem recordWith_alike (h : t.Alike u) (tokens : ν → Except String (List Token)) :
    recordWith tokens u = recordWith tokens t := by
  let _ : Recordable ν := ⟨fun v => raising (tokens v)⟩
  exact h.record

theorem textWith_alike (h : t.Alike u) (key : κ → Except String Text) (value : ν → Except String Text) :
    textWith key value u = textWith key value t := by
  let _ : Textual κ := ⟨fun k => raising (key k)⟩
  let _ : Textual ν := ⟨fun v => raising (value v)⟩
  exact h.text

theorem walkOver_alike (h : t.Alike u) (a : Access) (es : List End) : walkOver a es u = walkOver a es t := by
  rw [walkOver, h.ofTable, h.ends]
  rfl

theorem blind_run [Disposal ν] (op : Operation κ ν α) : Table.Blind (op.run : Action D ν α) := by
  cases op with
  | keyed op => exact op.blind_run
  | eraseRange lower upper => exact Table.blind_eraseRange lower upper
  | retain keep s => exact Table.blind_retain (fun s k v => (raising (keep s k v).1, (keep s k v).2)) s
  | eraseIf test s => exact Table.blind_eraseIf (fun s k v => (raising (test s k v).1, (test s k v).2)) s
  | size => exact Table.blind_inspect fun _ _ h => congrArg Except.ok h.size
  | isEmpty => exact Table.blind_inspect fun _ _ h => congrArg (fun n => Except.ok (n == 0)) h.size
  | contains k => exact Table.blind_inspect fun _ _ h => congrArg Except.ok (h.contains k)
  | multiplicity k => exact Table.blind_inspect fun _ _ h => congrArg (fun b => Except.ok b.toNat) (h.contains k)
  | get? k => exact Table.blind_inspect fun _ _ h => h.get k
  | require P site k => exact Table.blind_inspect fun _ _ h => h.require P site k
  | entries => exact Table.blind_inspect fun _ _ h => h.entries
  | record tokens => exact Table.blind_inspect fun _ _ h => recordWith_alike h tokens
  | text key value => exact Table.blind_inspect fun _ _ h => textWith_alike h key value
  | tour origin steps => exact blind_tourFrom origin steps
  | walk a es => exact Table.blind_inspect fun _ _ h => walkOver_alike h a es
  | lend cs => exact Table.blind_lend cs

end Operation

namespace Table

theorem takeAll_of_fresh {left : Table D ν} (h : fresh = .ok left) (t : Table D ν) : takeAll t = .ok t left := by
  rw [takeAll, h]
  rfl

theorem takeAll_of_not_fresh {f : Fault} (h : (fresh : Except Fault (Table D ν)) = .error f) (t : Table D ν) :
    takeAll t = .error f t := by
  rw [takeAll, h]
  rfl

variable [Disposal ν]

theorem Alike.lastFaults (h : t.Alike u) : u.lastFaults = t.lastFaults := by
  rw [Table.lastFaults, Table.lastFaults, Table.dispose]
  obtain ⟨_, _, _, ht, hu, -⟩ | ⟨_, _, _, ht, hu, -⟩ := (blind_clear t u h).ran
  · rw [ht, hu]
  · rw [ht, hu]

theorem lastFaults_alike {ts us : List (Table D ν)} (h : List.Forall₂ Alike ts us) :
    us.flatMap lastFaults = ts.flatMap lastFaults := by
  induction h with
  | nil => rfl
  | cons hHead _ ih => rw [List.flatMap_cons, List.flatMap_cons, hHead.lastFaults, ih]

end Table

namespace Pool

variable {P P' : Pool D ν}

/-- Each table of the one pool is alike to the table of the same number in the other. -/
def Alike (P P' : Pool D ν) : Prop := ∀ r, (P r).Alike (P' r)

theorem Alike.put (h : P.Alike P') (r : Nat) (ht : t.Alike u) : (P.put r t).Alike (P'.put r u) := by
  intro i
  rw [Pool.put, Pool.put]
  split
  · exact ht
  · exact h i

theorem Alike.putMade (h : P.Alike P') (r : Nat) (x : Except Fault (Table D ν)) :
    (P'.putMade r x).1 = (P.putMade r x).1 ∧ (P.putMade r x).2.Alike (P'.putMade r x).2 := by
  cases x with
  | ok t => exact ⟨rfl, h.put r (.refl t)⟩
  | error f => exact ⟨rfl, h⟩

theorem Alike.putResult (h : P.Alike P') (r : Nat) (caught : α → List Fault) {x : Action D ν α}
    (hx : Table.Likewise x t u Table.Alike) :
    (P'.putResult r caught (x u)).1 = (P.putResult r caught (x t)).1 ∧
      (P.putResult r caught (x t)).2.Alike (P'.putResult r caught (x u)).2 := by
  obtain ⟨a, t', u', ht, hu, hAlike⟩ | ⟨f, t', u', ht, hu, hAlike⟩ := hx.ran
  · rw [ht, hu]
    exact ⟨rfl, h.put r hAlike⟩
  · rw [ht, hu]
    exact ⟨rfl, h.put r hAlike⟩

variable [Disposal ν]

theorem Alike.act (h : P.Alike P') (c : Command κ ν) :
    (P'.act c).1 = (P.act c).1 ∧ (P.act c).2.Alike (P'.act c).2 := by
  cases c with
  | call r op => exact h.putResult r op.caught (op.blind_run _ _ (h r))
  | make r made =>
    rw [Pool.act, Pool.act]
    obtain f | e | t := (made.run : Except Fault (Except CheckError (Table D ν)))
    · exact h.putMade r (.error f)
    · exact ⟨rfl, h⟩
    · exact h.putMade r (.ok t)
  | equal r r' same =>
    let _ : BEq ν := ⟨same⟩
    rw [Pool.act, Pool.act, (h r).equal (h r')]
    cases (P r).equal (P r') with
    | ok b => exact ⟨rfl, h⟩
    | error f => exact ⟨rfl, h⟩
  | clone source target copy s =>
    rw [Pool.act, Pool.act, (h source).cloneWith]
    exact h.putMade target _
  | cloneFrom source target copy s =>
    rw [Pool.act, Pool.act, (h source).cloneFromWith]
    exact h.putResult target _ (Table.blind_cloneFromWith _ s _ _ _ (h target))
  | copied source target => exact ⟨rfl, h.put target (h source)⟩
  | takeAll source target =>
    rw [Pool.act, Pool.act]
    cases hFresh : (Table.fresh : Except Fault (Table D ν)) with
    | ok left =>
      rw [Table.takeAll_of_fresh hFresh, Table.takeAll_of_fresh hFresh]
      exact ⟨rfl, (h.put source (.refl left)).put target (h source)⟩
    | error f =>
      rw [Table.takeAll_of_not_fresh hFresh, Table.takeAll_of_not_fresh hFresh]
      exact ⟨rfl, h.put source (h source)⟩
  | exchange r r' => exact ⟨rfl, (h.put r (h r')).put r' (h r)⟩
  | drain r es =>
    have hReply := congrArg (fun rs => ({ result := .ok ⟨_, rs⟩, caught := Operation.faultsIn rs } : Reply))
      ((Drain.Alike.start (h r)).run es).1
    exact ⟨hReply, h.put r (.refl .empty)⟩

/-- Alike pools lose alike tables with a command. -/
theorem Alike.ending (h : P.Alike P') (c : Command κ ν) :
    List.Forall₂ Table.Alike (P.ending c) (P'.ending c) := by
  have hSame : ∀ ts : List (Table D ν), List.Forall₂ Table.Alike ts ts := fun ts =>
    List.forall₂_same.mpr fun t _ => .refl t
  cases c with
  | make r made =>
    rw [Pool.ending, Pool.ending]
    obtain f | e | t := (made.run : Except Fault (Except CheckError (Table D ν)))
    · exact hSame _
    · exact hSame _
    · exact .cons (h r) (hSame _)
  | clone source target copy s =>
    rw [Pool.ending, Pool.ending, (h source).cloneWith, (h source).constructCopies]
    cases (P source).cloneWith (copierOf copy) s with
    | ok _ => exact .cons (h target) .nil
    | error _ => exact hSame _
  | copied _ target => exact .cons (h target) .nil
  | takeAll source target =>
    rw [Pool.ending, Pool.ending]
    cases hFresh : (Table.fresh : Except Fault (Table D ν)) with
    | ok left =>
      rw [Table.takeAll_of_fresh hFresh, Table.takeAll_of_fresh hFresh]
      exact .cons (h.put source (.refl left) target) .nil
    | error f =>
      rw [Table.takeAll_of_not_fresh hFresh, Table.takeAll_of_not_fresh hFresh]
      exact .nil
  | drain r es => exact .cons ((Drain.Alike.start (h r)).run es).2.table .nil
  | _ => exact .nil

theorem Alike.step (h : P.Alike P') (c : Command κ ν) :
    (P'.step c).1 = (P.step c).1 ∧ (P.step c).2.Alike (P'.step c).2 := by
  obtain ⟨hReply, hNext⟩ := h.act c
  refine ⟨?_, hNext⟩
  rw [step_reply, step_reply, hReply, Table.lastFaults_alike (h.ending c)]

theorem Alike.run (h : P.Alike P') (cs : List (Command κ ν)) :
    (Pool.run cs P').1 = (Pool.run cs P).1 ∧ (Pool.run cs P).2.Alike (Pool.run cs P').2 := by
  induction cs generalizing P P' with
  | nil => exact ⟨rfl, h⟩
  | cons c cs ih =>
    obtain ⟨hReply, hNext⟩ := h.step c
    obtain ⟨hReplies, hLast⟩ := ih hNext
    exact ⟨List.cons_eq_cons.mpr ⟨hReply, hReplies⟩, hLast⟩

end Pool

end OrdinalMap
