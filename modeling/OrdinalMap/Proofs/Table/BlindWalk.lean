import OrdinalMap.Proofs.Table.Blind
import OrdinalMap.Proofs.Table.Loan
import OrdinalMap.Table.Drain

/-! # Tours, walks and drains of alike tables

A tour, a walk with loans and a drain have a state of their own between the steps.
On alike tables these states stay the same, and so does what the steps give.
-/

namespace OrdinalMap

set_option autoImplicit false

variable {κ ν α : Type} {D : Domain κ} {a : Access} {d : Direction} {t u : Table D ν}

namespace Table

theorem holds_of_entryAt {i : Nat} {e : Entry κ ν} (h : t.entryAt a i = .ok e) : t.holds e.ordinal = true := by
  rw [entryAt] at h
  cases hi : t.holds i with
  | false =>
    rw [hi] at h
    split at h <;> cases h
  | true =>
    rw [hi] at h
    split at h
    · cases h
    · cases hValue : t.valueAt i with
      | error f =>
        rw [hValue] at h
        cases h
      | ok v =>
        cases hKey : D.keyAt i with
        | error f =>
          rw [hValue, hKey] at h
          cases h
        | ok k =>
          rw [hValue, hKey] at h
          cases h
          exact hi

theorem blind_modifyEntry (p : Position .writable d) (f : ν → ν) : Blind (modifyEntry p f : Action D ν _) := by
  intro t u h
  refine likewise_inspect_bind h (h.entryAt .writable _) fun e he => ?_
  exact (likewise_modifyAt h (holds_of_entryAt he) f).bind fun v _ _ h => likewise_pure { e with value := v } h

end Table

/-! ## Tours -/

theorem Origin.blind_obtain [Disposal ν] (origin : Origin κ ν a d) : Table.Blind (origin.obtain : Action D ν _) := by
  cases origin with
  | first => exact Table.blind_inspect fun _ _ h => h.positionFrom a 0
  | pastLast => exact Table.blind_inspect fun _ _ h => h.positionAt a .forward D.count
  | last => exact Table.blind_inspect fun _ _ h => h.positionAt a .reverse D.count
  | beforeFirst => exact Table.blind_inspect fun _ _ h => h.positionAt a .reverse 0
  | find k => exact Table.blind_inspect fun _ _ h => h.find a k
  | insert k v => exact (Table.blind_insert k v).bind fun _ => Table.blind_pure _
  | assign k v => exact (Table.blind_assign k v).bind fun _ => Table.blind_pure _
  | emplace k make s =>
    exact (Table.blind_emplace k (fun s => (raising (make s).1, (make s).2)) s).bind fun _ => Table.blind_pure _
  | eraseAt k => exact Table.blind_eraseAt k

theorem Tour.run_alike (steps : Tour ν a d) (p : Position a d) (h : t.Alike u) :
    (steps.run p u).1 = (steps.run p t).1 ∧ (steps.run p t).2.Alike (steps.run p u).2 := by
  induction steps generalizing t u with
  | done => exact ⟨rfl, h⟩
  | increment rest ih =>
    rw [run, run, h.motion]
    obtain ⟨hSeen, hLast⟩ := ih (settle (κ := κ) (ν := ν) p (p.increment (t.motion _))).2 h
    exact ⟨congrArg (List.cons _) hSeen, hLast⟩
  | decrement rest ih =>
    rw [run, run, h.motion]
    obtain ⟨hSeen, hLast⟩ := ih (settle (κ := κ) (ν := ν) p (p.decrement (t.motion _))).2 h
    exact ⟨congrArg (List.cons _) hSeen, hLast⟩
  | postIncrement rest ih =>
    rw [run, run, h.motion]
    obtain ⟨hSeen, hLast⟩ := ih (settleCopied (κ := κ) (ν := ν) p (p.postIncrement (t.motion _))).2 h
    exact ⟨congrArg (List.cons _) hSeen, hLast⟩
  | postDecrement rest ih =>
    rw [run, run, h.motion]
    obtain ⟨hSeen, hLast⟩ := ih (settleCopied (κ := κ) (ν := ν) p (p.postDecrement (t.motion _))).2 h
    exact ⟨congrArg (List.cons _) hSeen, hLast⟩
  | read rest ih =>
    rw [run, run, h.entry]
    obtain ⟨hSeen, hLast⟩ := ih (p.map Skip.seek) h
    exact ⟨congrArg (List.cons _) hSeen, hLast⟩
  | modify f rest ih =>
    rw [run, run]
    obtain ⟨e, t', u', ht, hu, hNext⟩ | ⟨g, t', u', ht, hu, hNext⟩ := (Table.blind_modifyEntry p f t u h).ran
    · obtain ⟨hSeen, hLast⟩ := ih (p.map Skip.seek) hNext
      rw [ht, hu]
      exact ⟨congrArg (List.cons _) hSeen, hLast⟩
    · obtain ⟨hSeen, hLast⟩ := ih (p.map Skip.seek) hNext
      rw [ht, hu]
      exact ⟨congrArg (List.cons _) hSeen, hLast⟩
  | toReadOnly rest ih => exact ih p.toReadOnly h
  | base rest ih =>
    rw [run, run, h.motion]
    obtain ⟨hSeen, hLast⟩ := ih (Cursor.base (t.motion _) p) h
    exact ⟨congrArg (List.cons _) hSeen, hLast⟩

/-! ## Walks with loans -/

theorem Walk.holds_of_pull (t : Table D ν) (e : End) (w : Walk a) :
    Ends ((ends t).pull e) w (fun r _ => ∀ found ∈ r, t.holds found.ordinal = true) fun _ _ => True := by
  cases e with
  | front =>
    change Ends (next t) w _ _
    rw [next, ends_get_bind]
    cases w.isDone with
    | true =>
      intro found hFound
      cases hFound
    | false =>
      refine ends_bind.mpr (ends_readFront (fun found hFound => ?_) fun _ _ => trivial)
      refine (ends_true (moveFront t) _).bind (fun _ w _ => ?_) fun _ _ h => h
      refine (ends_true countDown w).bind (fun _ w _ => ?_) fun _ _ h => h
      rintro _ ⟨⟩
      exact Table.holds_of_entryAt hFound
  | back =>
    change Ends (nextBack t) w _ _
    rw [nextBack, ends_get_bind]
    cases w.isDone with
    | true =>
      intro found hFound
      cases hFound
    | false =>
      refine (ends_true (moveBack t) w).bind (fun _ w _ => ?_) fun _ _ h => h
      refine (ends_true countDown w).bind (fun _ w _ => ?_) fun _ _ h => h
      refine ends_bind.mpr (ends_readBack (fun found hFound => ?_) fun _ _ => trivial)
      rintro _ ⟨⟩
      exact Table.holds_of_entryAt hFound

namespace Lending

/-- The tables are alike, all else is the same, and what is lent are entries. -/
structure Alike (s s' : Lending D ν) : Prop where
  table : s.table.Alike s'.table
  walk : s'.walk = s.walk
  loans : s'.loans = s.loans
  held : ∀ i ∈ s.lent, s.table.holds i = true

variable {s s' : Lending D ν}

theorem Alike.pull (h : s.Alike s') (e : End) :
    (Lending.pull e s').1 = (Lending.pull e s).1 ∧ (Lending.pull e s).2.Alike (Lending.pull e s').2 := by
  have hHolds := Walk.holds_of_pull s.table e s.walk
  rw [Lending.pull, Lending.pull, h.table.ends, h.walk]
  obtain ⟨r, w, hRun, hFound⟩ | ⟨f, w, hRun, -⟩ := hHolds.ran
  · rw [hRun]
    cases r with
    | none => exact ⟨rfl, h.table, rfl, h.loans, h.held⟩
    | some found =>
      refine ⟨rfl, h.table, rfl, by rw [h.loans], ?_⟩
      intro i hi
      rw [lent, List.map_append] at hi
      obtain hi | hi := List.mem_append.mp hi
      · exact h.held i hi
      · rw [List.mem_singleton.mp hi]
        exact hFound found rfl
  · rw [hRun]
    exact ⟨rfl, h.table, rfl, h.loans, h.held⟩

theorem Alike.write (h : s.Alike s') (n : Nat) (v : ν) :
    (Lending.write n v s').1 = (Lending.write n v s).1 ∧ (Lending.write n v s).2.Alike (Lending.write n v s').2 := by
  rw [Lending.write, Lending.write, h.loans]
  cases hl : s.loans[n]? with
  | none => exact ⟨rfl, h⟩
  | some l =>
    have hHeld := h.held l.ordinal (List.mem_map_of_mem (List.mem_of_getElem? hl))
    have hFrame := Table.modifyAt_frame s.table l.ordinal fun _ => v
    dsimp only
    obtain ⟨_, t, u, ht, hu, hTable⟩ | ⟨f, t, u, ht, hu, hTable⟩ :=
      (Table.likewise_modifyAt h.table hHeld fun _ => v).ran
    · rw [Ends, ht] at hFrame
      rw [ht, hu]
      refine ⟨rfl, hTable, h.walk, rfl, ?_⟩
      -- a write keeps the occupancy, so that what is lent still has entries
      intro i hi
      rw [lent, lent_set hl] at hi
      rw [Table.holds, hFrame.1]
      exact h.held i hi
    · rw [Ends, ht] at hFrame
      rw [ht, hu]
      exact ⟨rfl, hTable, h.walk, rfl, fun i hi => hFrame ▸ h.held i hi⟩

theorem Alike.perform (h : s.Alike s') (c : LoanCall ν) :
    (Lending.perform c s').1 = (Lending.perform c s).1 ∧ (Lending.perform c s).2.Alike (Lending.perform c s').2 := by
  cases c with
  | pull e => exact h.pull e
  | write n v => exact h.write n v

theorem Alike.run (h : s.Alike s') (cs : List (LoanCall ν)) :
    (Lending.run cs s').1 = (Lending.run cs s).1 ∧ (Lending.run cs s).2.Alike (Lending.run cs s').2 := by
  induction cs generalizing s s' with
  | nil => exact ⟨rfl, h⟩
  | cons c cs ih =>
    obtain ⟨hResult, hNext⟩ := h.perform c
    obtain ⟨hResults, hLast⟩ := ih hNext
    exact ⟨List.cons_eq_cons.mpr ⟨hResult, hResults⟩, hLast⟩

end Lending

theorem Table.blind_lend (cs : List (LoanCall ν)) : Blind (lend cs : Action D ν _) := by
  intro t u h
  cases hOf : Walk.ofTable .writable t with
  | error f =>
    exact twin_of_error (by rw [lend, hOf]) (by rw [lend, h.ofTable, hOf]) ⟨rfl, h⟩
  | ok w =>
    have hStart : Lending.Alike { table := t, walk := w, loans := [] } { table := u, walk := w, loans := [] } :=
      ⟨h, rfl, rfl, nofun⟩
    obtain ⟨hResults, hLast⟩ := hStart.run cs
    exact twin_of_ok (by rw [lend, hOf]) (by rw [lend, h.ofTable, hOf]) ⟨hResults, hLast.table⟩

/-! ## Drains -/

namespace Drain

structure Alike (c c' : Drain D ν) : Prop where
  table : c.table.Alike c'.table
  front : c'.front = c.front
  back : c'.back = c.back

theorem Alike.start {t u : Table D ν} (h : t.Alike u) : (ofTable t).Alike (ofTable u) := ⟨h, rfl, rfl⟩

variable {c c' : Drain D ν}

theorem Alike.extract (h : c.Alike c') (i : Nat) :
    Twin (Drain.extract i) (Drain.extract i) c c' (fun p p' e e' => p' = p ∧ e.Alike e')
      fun f f' e e' => f' = f ∧ e.Alike e' := by
  obtain ⟨p, t, u, ht, hu, hTable⟩ | ⟨f, t, u, ht, hu, hTable⟩ := (Table.blind_extract i _ _ h.table).ran
  · rw [Twin, Drain.extract, ht, Drain.extract, hu]
    exact ⟨rfl, hTable, h.front, h.back⟩
  · rw [Twin, Drain.extract, ht, Drain.extract, hu]
    exact ⟨rfl, hTable, h.front, h.back⟩

theorem Alike.pull (h : c.Alike c') (e : End) :
    Twin (ends.pull e) (ends.pull e) c c' (fun r r' e e' => r' = r ∧ e.Alike e')
      fun f f' e e' => f' = f ∧ e.Alike e' := by
  have hExtract : ∀ {b b' : Drain D ν} (i : Nat), b.Alike b' →
      Twin (do return some (← Drain.extract i)) (do return some (← Drain.extract i)) b b'
        (fun r r' e e' => r' = r ∧ e.Alike e') fun f f' e e' => f' = f ∧ e.Alike e' := by
    intro b b' i hb
    apply (hb.extract i).bind
    · rintro p _ e e' ⟨rfl, he⟩
      exact ⟨rfl, he⟩
    · exact fun _ _ _ _ hE => hE
  cases e with
  | front =>
    apply twin_get_bind.mpr
    rw [h.table.occupancy, h.front, h.back]
    cases (c.table.occupancy.next? c.front).filter (· < c.back) with
    | none => exact ⟨rfl, h⟩
    | some i => exact hExtract i ⟨h.table, rfl, rfl⟩
  | back =>
    apply twin_get_bind.mpr
    rw [h.table.occupancy, h.front, h.back]
    cases (c.table.occupancy.prev? c.back).filter (c.front ≤ ·) with
    | none => exact ⟨rfl, h⟩
    | some i => exact hExtract i ⟨h.table, rfl, rfl⟩

theorem Alike.run (h : c.Alike c') (es : List End) :
    (ends.run es c').1 = (ends.run es c).1 ∧ (ends.run es c).2.Alike (ends.run es c').2 :=
  TwoEnded.run_same (fun e _ _ h => h.pull e) es h

end Drain

end OrdinalMap
