import OrdinalMap.Proofs.Table.Drain
import OrdinalMap.Proofs.Table.Reading
import OrdinalMap.Pool

/-! # Programs keep their tables sound

Every operation, every way of making a table and every command keeps the tables
of a pool sound, on every domain, and the tables that end with a command are sound
as well, before and after their values are given up. A program therefore never
commits a breach, and each table that it reaches is sound.
-/

namespace OrdinalMap

set_option autoImplicit false

variable {κ ν α : Type} {D : Domain κ} {t : Table D ν}

theorem KeyOperation.steady_run [Disposal ν] (op : KeyOperation κ ν α) : Table.Steady (op.run : Action D ν α) := by
  cases op with
  | insert k v => exact Table.steady_insert k v
  | assign k v => exact Table.steady_assign k v
  | emplace k make s =>
    exact Table.steady_emplace k (fun s => (raising (make s).1, (make s).2)) s fun s =>
      settles_raising (make s).1
  | modifyOrInsert k initial f => exact Table.steady_modifyOrInsert k initial f
  | modify? k f => exact Table.steady_modify? k f
  | modifyRequired P site k f => exact Table.steady_modifyRequired P site k f
  | insertMany pairs => exact Table.steady_insertMany pairs
  | erase k => exact Table.steady_erase k
  | eraseAt k => exact Table.steady_eraseAt k
  | take? k => exact Table.steady_take? k
  | takePair? k => exact Table.steady_takeEntry k
  | clear => exact Table.steady_clear

namespace Operation

theorem mem_faultsIn {rs : List (Except Fault α)} {f : Fault} : f ∈ faultsIn rs ↔ .error f ∈ rs := by
  rw [faultsIn, List.mem_filterMap]
  constructor
  · rintro ⟨r, hr, hf⟩
    cases r with
    | ok a => cases hf
    | error g =>
      cases hf
      exact hr
  · exact fun hf => ⟨.error f, hf, rfl⟩

theorem keeps_of_steady {x : Action D ν α} (hx : Table.Steady x) (h : t.Sound) :
    Ends x t (fun _ u => u.Sound ∧ ∀ f ∈ ([] : List Fault), f.Regular) (fun f u => f.Regular ∧ u.Sound) :=
  (hx t h).mono (fun _ _ hu => ⟨hu, nofun⟩) fun _ _ hf => hf

theorem keeps_of_inspect {f : Table D ν → Except Fault α} (h : t.Sound) {caught : α → List Fault}
    (hf : Settles (f t) fun a => ∀ g ∈ caught a, g.Regular) :
    Ends (Table.inspect f) t (fun a u => u.Sound ∧ ∀ g ∈ caught a, g.Regular)
      (fun g u => g.Regular ∧ u.Sound) := by
  apply Table.ends_inspect
  · intro a ha
    rw [ha] at hf
    exact ⟨h, hf⟩
  · intro e he
    rw [he] at hf
    exact ⟨hf, h⟩

theorem tourFrom_keeps [Disposal ν] {a : Access} {d : Direction} (origin : Origin κ ν a d) (steps : Tour ν a d)
    (h : t.Sound) :
    Ends (tourFrom origin steps) t (fun seen u => u.Sound ∧ ∀ f ∈ faultsIn seen, f.Regular)
      (fun f u => f.Regular ∧ u.Sound) := by
  apply (origin.steady_obtain t h).bind
  · intro p u hu
    obtain ⟨hLast, hFaults⟩ := steps.run_keeps p hu
    exact ⟨hLast, fun f hf => hFaults f (mem_faultsIn.mp hf)⟩
  · exact fun f u hf => hf

theorem lend_keeps (cs : List (LoanCall ν)) (h : t.Sound) :
    Ends (Table.lend cs) t (fun rs u => u.Sound ∧ ∀ f ∈ faultsIn rs, f.Regular)
      (fun f u => f.Regular ∧ u.Sound) := by
  obtain ⟨w, hOf, hw⟩ := Walk.ofTable_spans (a := .writable) h.shows
  rw [show (fun i => (t.live i).isSome) = t.holds from funext h.isSome_live] at hw
  obtain ⟨_, hLast, hFaults⟩ := (Lending.Keeps.start h hw).run cs
  rw [Ends, Table.lend, hOf]
  exact ⟨hLast.sound, fun f hf b hb => hFaults _ (mem_faultsIn.mp hf) b (congrArg _ hb)⟩

theorem run_keeps [Disposal ν] (op : Operation κ ν α) (h : t.Sound) :
    Ends op.run t (fun a u => u.Sound ∧ ∀ f ∈ op.caught a, f.Regular) (fun f u => f.Regular ∧ u.Sound) := by
  cases op with
  | keyed op => exact keeps_of_steady op.steady_run h
  | eraseRange lower upper => exact keeps_of_steady (Table.steady_eraseRange lower upper) h
  | retain keep s =>
    exact keeps_of_steady (Table.steady_retain (fun s k v => settles_raising (keep s k v).1) s) h
  | eraseIf test s =>
    exact keeps_of_steady (Table.steady_eraseIf (fun s k v => settles_raising (test s k v).1) s) h
  | size => exact ⟨h, nofun⟩
  | isEmpty => exact ⟨h, nofun⟩
  | contains k => exact ⟨h, nofun⟩
  | multiplicity k => exact ⟨h, nofun⟩
  | get? k => exact keeps_of_inspect h ((Table.settles_get? h k).mono fun _ _ => nofun)
  | require P site k => exact keeps_of_inspect h ((Table.settles_require h P site k).mono fun _ _ => nofun)
  | entries => exact keeps_of_inspect h ((Table.settles_entries h).mono fun _ _ => nofun)
  | record tokens => exact keeps_of_inspect h ((settles_recordWith h tokens).mono fun _ _ => nofun)
  | text key value => exact keeps_of_inspect h ((settles_textWith h key value).mono fun _ _ => nofun)
  | tour origin steps => exact tourFrom_keeps origin steps h
  | walk a es =>
    refine keeps_of_inspect h ((settles_walkOver h a es).mono fun rs hrs f hf => ?_)
    exact hrs f (mem_faultsIn.mp hf)
  | lend cs => exact lend_keeps cs h

end Operation

namespace Table

variable [Disposal ν]

theorem fill_keeps (pairs : Nat → Option (κ × ν)) (limit taken : Nat) (h : t.Sound) :
    (fill pairs limit taken t).2.2.Sound ∧ ∀ f, (fill pairs limit taken t).1 = .faulted f → f.Regular := by
  induction limit generalizing t taken with
  | zero => exact ⟨h, nofun⟩
  | succ limit ih =>
    rw [fill]
    cases pairs taken with
    | none => exact ⟨h, nofun⟩
    | some p =>
      dsimp only
      obtain ⟨new, u, hRun, -, hu⟩ | ⟨f, u, hRun, hf, hu⟩ :=
        (constructNew_ends h.shows (D.ordinal p.1) p.2).ran
      · rw [hRun]
        cases new with
        | true => exact ih (taken + 1) hu.sound
        | false => exact ⟨hu.sound, nofun⟩
      · rw [hRun]
        constructor
        · exact hu.sound
        · rintro _ ⟨⟩
          exact regular_of_misfit_or_stops hf

end Table

theorem Table.settles_fresh : Settles (fresh : Except Fault (Table D ν)) Sound := by
  rw [fresh]
  split
  · exact shows_empty.sound
  · intro b hb
    cases hb

theorem copierOf_regular {σ : Type} (copy : σ → ν → Except String ν × σ) (s : σ) (v : ν) :
    Settles (copierOf copy s v).1 fun _ => True := settles_raising (copy s v).1

theorem Builder.settles_after (b : Builder D ν) (h : b.table.Sound) {x : Action D ν α} (hx : Table.Steady x) :
    Settles (b.after x) fun b => b.table.Sound := by
  rw [Builder.after]
  obtain ⟨_, u, hRun, hu⟩ | ⟨f, _, hRun, hf, -⟩ := (hx b.table h).ran
  · rw [hRun]
    exact hu
  · rw [hRun]
    exact hf

section Making

variable [Disposal ν]

theorem Builder.settles_perform (steps : List (Builder.Step κ ν)) (b : Builder D ν) (h : b.table.Sound) :
    Settles (Builder.perform steps b) fun b => b.table.Sound := by
  induction steps generalizing b with
  | nil => exact h
  | cons step steps ih =>
    cases step with
    | insert k v => exact (b.settles_after h (Table.steady_insert k v)).bind fun b hb => ih b hb
    | insertMany pairs => exact (b.settles_after h (Table.steady_insertMany pairs)).bind fun b hb => ih b hb

theorem Builder.Step.steady_act (step : Builder.Step κ ν) : Table.Steady (step.act : Action D ν Unit) := by
  cases step with
  | insert k v => exact (Table.steady_insert k v).discard
  | insertMany pairs => exact Table.steady_insertMany pairs

theorem Builder.sound_of_unfinished (steps : List (Builder.Step κ ν)) (b : Builder D ν) (h : b.table.Sound) :
    ∀ u ∈ Builder.unfinished steps b, u.Sound := by
  induction steps generalizing b with
  | nil => exact nofun
  | cons step steps ih =>
    rw [Builder.unfinished]
    obtain ⟨_, u, hRun, hu⟩ | ⟨_, u, hRun, -, hu⟩ := (step.steady_act b.table h).ran
    · rw [hRun]
      exact ih ⟨u⟩ hu
    · rw [hRun]
      exact fun _ hw => List.mem_singleton.mp hw ▸ hu

namespace Table

theorem settles_tryComplete (pairs : Nat → Option (κ × ν)) :
    Settles (tryComplete pairs : Intake (Except CheckError (Table D ν))).result
      fun r => ∀ t, r = .ok t → t.Sound := by
  have hFill := fill_keeps pairs (fillLimit D) 0 (shows_empty (D := D)).sound
  rw [tryComplete]
  revert hFill
  obtain ⟨_ | _ | f, taken, t⟩ := fill pairs (fillLimit D) 0 empty
  · rintro ⟨ht, -⟩
    dsimp only
    split
    · rintro _ ⟨⟩
      exact ht
    · rintro _ ⟨⟩
  · rintro - _ ⟨⟩
  · exact fun hFill => hFill.2 f rfl

theorem settles_complete (P : Policy) (site : String) (pairs : Nat → Option (κ × ν)) :
    Settles (complete P site pairs : Intake (Table D ν)).result Sound := by
  have hFill := fill_keeps pairs (fillLimit D) 0 (shows_empty (D := D)).sound
  rw [complete]
  revert hFill
  obtain ⟨_ | _ | f, taken, t⟩ := fill pairs (fillLimit D) 0 empty
  · rintro ⟨ht, -⟩
    dsimp only
    split
    · exact ht
    · intro b hb
      cases hb
  · intro _ b hb
    cases hb
  · exact fun hFill => hFill.2 f rfl

theorem sound_of_incomplete (pairs : Nat → Option (κ × ν)) :
    ∀ u ∈ (incomplete pairs : List (Table D ν)), u.Sound := by
  rw [incomplete]
  split
  · exact nofun
  · intro u hu
    rw [List.mem_singleton.mp hu]
    exact (fill_keeps pairs (fillLimit D) 0 shows_empty.sound).1

end Table

theorem Making.settles_run (made : Making κ ν) :
    Settles (made.run : Except Fault (Except CheckError (Table D ν))) fun r => ∀ t, r = .ok t → t.Sound := by
  have hOk : ∀ t : Table D ν, t.Sound → ∀ u, (Except.ok t : Except CheckError _) = .ok u → u.Sound := by
    rintro t ht _ ⟨⟩
    exact ht
  cases made with
  | empty => exact hOk _ Table.shows_empty.sound
  | fresh => exact Table.settles_fresh.map hOk
  | ofKeys copy s keys v =>
    exact (Table.steady_assignCopies (copierOf_regular copy) s keys v).settles_build.map hOk
  | ofList pairs => exact (Table.steady_insertMany pairs).settles_build.map hOk
  | tryComplete pairs => exact Table.settles_tryComplete pairs
  | complete P site pairs => exact (Table.settles_complete P site pairs).map hOk
  | build steps =>
    exact (Builder.settles_perform steps .empty Table.shows_empty.sound).map fun b hb => hOk b.table hb
  | snapshot steps copy s =>
    refine (Builder.settles_perform steps .empty Table.shows_empty.sound).bind fun b hb => ?_
    exact (Table.settles_cloneWith (copierOf_regular copy) hb s).bind hOk

theorem Making.sound_of_leaves (made : Making κ ν) : ∀ u ∈ (made.leaves : List (Table D ν)), u.Sound := by
  have hEmpty := (Table.shows_empty (D := D) (ν := ν)).sound
  cases made with
  | empty => exact nofun
  | fresh => exact nofun
  | ofKeys copy s keys v =>
    exact (Table.steady_assignCopies (copierOf_regular copy) s keys v).sound_of_unfinished
  | ofList pairs => exact (Table.steady_insertMany pairs).sound_of_unfinished
  | tryComplete pairs => exact Table.sound_of_incomplete pairs
  | complete P site pairs => exact Table.sound_of_incomplete pairs
  | build steps => exact Builder.sound_of_unfinished steps .empty hEmpty
  | snapshot steps copy s =>
    have hPerform := Builder.settles_perform steps (.empty : Builder D ν) hEmpty
    rw [Making.leaves]
    revert hPerform
    cases Builder.perform steps (.empty : Builder D ν) with
    | ok b =>
      intro hb u hu
      obtain rfl | hu := List.mem_cons.mp hu
      · exact hb
      · exact Table.sound_of_unfinished
          (Table.constructCopies_ends (copierOf_regular copy) hb Table.shows_empty s) u hu
    | error f => exact fun _ => Builder.sound_of_unfinished steps .empty hEmpty

end Making

theorem Reply.regular_faults {f : Fault} (hf : f.Regular) :
    ∀ g ∈ ({ result := .error f } : Reply).faults, g.Regular := by
  intro g hg
  cases List.mem_singleton.mp hg
  exact hf

/-- What holds of the faults of a reply and of more of them, holds if these are added. -/
theorem Reply.forall_faults_adding {r : Reply} {fs : List Fault} {X : Fault → Prop} (hMore : ∀ f ∈ fs, X f)
    (h : ∀ f ∈ r.faults, X f) : ∀ f ∈ ({ r with caught := fs ++ r.caught } : Reply).faults, X f := by
  obtain ⟨_ | _, caught⟩ := r
  · obtain ⟨hResult, hCaught⟩ := List.forall_mem_cons.mp h
    exact List.forall_mem_cons.mpr ⟨hResult, List.forall_mem_append.mpr ⟨hMore, hCaught⟩⟩
  · exact List.forall_mem_append.mpr ⟨hMore, h⟩

namespace Pool

variable {P : Pool D ν}

def Sound (P : Pool D ν) : Prop := ∀ r, (P r).Sound

theorem sound_start : (start : Pool D ν).Sound := fun _ => Table.shows_empty.sound

theorem Sound.put (h : P.Sound) (r : Nat) (ht : t.Sound) : (P.put r t).Sound := by
  intro i
  rw [Pool.put]
  split
  · exact ht
  · exact h i

theorem Sound.putMade (h : P.Sound) (r : Nat) {x : Except Fault (Table D ν)} (hx : Settles x Table.Sound) :
    (P.putMade r x).2.Sound ∧ ∀ f ∈ (P.putMade r x).1.faults, f.Regular := by
  cases x with
  | ok t => exact ⟨h.put r hx, nofun⟩
  | error f => exact ⟨h, Reply.regular_faults hx⟩

theorem Sound.putResult (h : P.Sound) (r : Nat) {caught : α → List Fault} {x : Action D ν α}
    (hx : Ends x t (fun a u => u.Sound ∧ ∀ f ∈ caught a, f.Regular) fun f u => f.Regular ∧ u.Sound) :
    (P.putResult r caught (x t)).2.Sound ∧ ∀ f ∈ (P.putResult r caught (x t)).1.faults, f.Regular := by
  obtain ⟨a, u, hRun, hu, hCaught⟩ | ⟨f, u, hRun, hf, hu⟩ := hx.ran
  · rw [hRun]
    exact ⟨h.put r hu, hCaught⟩
  · rw [hRun]
    exact ⟨h.put r hu, Reply.regular_faults hf⟩

variable [Disposal ν]

theorem Sound.act (h : P.Sound) (c : Command κ ν) :
    (P.act c).2.Sound ∧ ∀ f ∈ (P.act c).1.faults, f.Regular := by
  cases c with
  | call r op => exact h.putResult r (op.run_keeps (h r))
  | make r made =>
    have hMade := made.settles_run (D := D)
    rw [Pool.act]
    revert hMade
    obtain f | e | t := (made.run : Except Fault (Except CheckError (Table D ν)))
    · exact fun hf => h.putMade r (x := .error f) hf
    · exact fun _ => ⟨h, nofun⟩
    · exact fun ht => h.putMade r (x := .ok t) (ht t rfl)
  | equal r r' same =>
    let _ : BEq ν := ⟨same⟩
    have hEqual := Table.settles_equal (h r) (h r')
    rw [Pool.act]
    revert hEqual
    cases Table.equal (P r) (P r') with
    | ok b => exact fun _ => ⟨h, nofun⟩
    | error f => exact fun hf => ⟨h, Reply.regular_faults hf⟩
  | clone source target copy s =>
    exact h.putMade target (Table.settles_cloneWith (copierOf_regular copy) (h source) s)
  | cloneFrom source target copy s =>
    apply h.putResult target
    exact Operation.keeps_of_steady (Table.steady_cloneFromWith (copierOf_regular copy) (h source) s) (h target)
  | copied source target => exact h.putMade target (x := .ok (P source).copied) (h source)
  | takeAll source target =>
    rw [Pool.act]
    obtain ⟨_, _, hRun, rfl, rfl⟩ | ⟨f, _, hRun, hf, rfl⟩ := (Table.takeAll_ends (P source)).ran
    · rw [hRun]
      exact (h.put source Table.shows_empty.sound).putMade target (x := .ok (P source)) (h source)
    · rw [hRun]
      exact ⟨h.put source (h source), Reply.regular_faults hf⟩
  | exchange r r' => exact ⟨(h.put r (h r')).put r' (h r), nofun⟩
  | drain r es =>
    constructor
    · exact h.put r Table.shows_empty.sound
    · intro f hf
      exact (Drain.run_keeps (h r) es).2 f (Operation.mem_faultsIn.mp hf)

theorem Sound.ending (h : P.Sound) (c : Command κ ν) : ∀ t ∈ P.ending c, t.Sound := by
  cases c with
  | make r made =>
    have hLeaves := made.sound_of_leaves (D := D)
    rw [Pool.ending]
    split
    · exact List.forall_mem_cons.mpr ⟨h r, hLeaves⟩
    · exact hLeaves
  | clone source target copy s =>
    rw [Pool.ending]
    split
    · exact List.forall_mem_singleton.mpr (h target)
    · exact Table.sound_of_unfinished
        (Table.constructCopies_ends (copierOf_regular copy) (h source) Table.shows_empty s)
  | copied source target => exact List.forall_mem_singleton.mpr (h target)
  | takeAll source target =>
    rw [Pool.ending]
    obtain ⟨_, _, hRun, -, rfl⟩ | ⟨_, _, hRun, -⟩ := (Table.takeAll_ends (P source)).ran
    · rw [hRun]
      exact List.forall_mem_singleton.mpr (h.put source Table.shows_empty.sound target)
    · rw [hRun]
      exact nofun
  | drain r es => exact List.forall_mem_singleton.mpr (Drain.run_keeps (h r) es).1
  | _ => exact nofun

/-- One command keeps all tables sound and commits no breach, also in giving up the
tables that end with it. -/
theorem Sound.step (h : P.Sound) (c : Command κ ν) :
    (P.step c).2.Sound ∧ ∀ f ∈ (P.step c).1.faults, f.Regular := by
  obtain ⟨hNext, hFaults⟩ := h.act c
  refine ⟨hNext, Reply.forall_faults_adding ?_ hFaults⟩
  intro f hf
  obtain ⟨t, ht, hLast⟩ := List.mem_flatMap.mp hf
  exact (h.ending c t ht).remnant.2 f hLast

theorem Sound.run (h : P.Sound) (cs : List (Command κ ν)) :
    (Pool.run cs P).2.Sound ∧ ∀ reply ∈ (Pool.run cs P).1, ∀ f ∈ reply.faults, f.Regular := by
  induction cs generalizing P with
  | nil => exact ⟨h, nofun⟩
  | cons c cs ih =>
    obtain ⟨hNext, hReply⟩ := h.step c
    obtain ⟨hLast, hReplies⟩ := ih hNext
    constructor
    · exact hLast
    · intro reply hMem
      obtain rfl | hMem := List.mem_cons.mp hMem
      · exact hReply
      · exact hReplies reply hMem

theorem Sound.occurs (h : P.Sound) (hOccurs : P.Occurs t) : t.Sound := by
  cases hOccurs with
  | kept r => exact h r
  | ending c ht => exact h.ending c t ht
  | remnant c ht => exact (h.ending c _ ht).remnant.1

/-- Whatever the data of the domain, whatever becomes of values that are given up, and
whatever a program does: in each table that occurs, those included that a command takes
from the program and what is left of them, the size is the number of bits set in the
occupancy, and each bit set has a slot, which holds a value. No command commits a breach,
and neither does the end of a table. -/
theorem run_sound (cs : List (Command κ ν)) :
    (∀ t : Table D ν, (Pool.run cs .start).2.Occurs t →
      t.size = t.occupancy.size ∧
        ∀ i, t.occupancy.bit i = true → ∃ (h : i < D.slots) (v : ν), t.slots[i] = .held v) ∧
    ∀ reply ∈ (Pool.run cs (.start : Pool D ν)).1, ∀ b, .breach b ∉ reply.faults := by
  obtain ⟨hSound, hReplies⟩ := (sound_start (D := D)).run cs
  constructor
  · intro t hOccurs
    have ht := hSound.occurs hOccurs
    constructor
    · exact ht.size_eq
    · intro i hi
      rw [← ht.trimmed.contains_eq_bit] at hi
      exact ht.held i hi
  · intro reply hMem b hb
    exact hReplies reply hMem _ hb b rfl

/-- Two values that cannot be given up: a pass over both stops at the first, of which no
entry and no value is left. -/
example :
    let _ : Disposal Nat := ⟨some fun _ => .error "kept"⟩
    let run := Pool.run [.call 0 (.keyed (.insert false 6)), .call 0 (.keyed (.insert true 5)),
      .call 0 (.keyed .clear)] (.start : Pool Domain.bool Nat)
    run.1.map Reply.faults = [[], [], [.raised "kept"]] ∧ (run.2 0).size = 1 ∧
      (run.2 0).slots.toList = [.unwritten, .held 5] := by decide

end Pool

theorem Table.Reachable.sound (h : t.Reachable) : t.Sound := by
  obtain ⟨_, cs, r, rfl⟩ := h
  exact (Pool.sound_start.run cs).1 r

end OrdinalMap
