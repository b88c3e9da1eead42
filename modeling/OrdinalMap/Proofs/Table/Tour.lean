import OrdinalMap.Proofs.Table.Steady
import OrdinalMap.Proofs.Table.Walk
import OrdinalMap.Table.Tour

/-! # Tours of sound tables

A cursor that is moved, read and written through in any way meets regular
faults only, and leaves the table sound.
-/

namespace OrdinalMap

set_option autoImplicit false

variable {κ ν : Type} {D : Domain κ} {a : Access} {d : Direction} {t : Table D ν}

theorem Skip.settles_recede (sel : Selection) (p : Skip a) : Settles (p.recede sel) fun _ => True := by
  unfold Skip.recede
  split
  · exact nofun
  · exact trivial

theorem Cursor.settles_increment (sel : Selection) (p : Position a d) :
    Settles (p.increment (Skip.motion sel)) fun _ => True := by
  cases d with
  | forward => exact trivial
  | reverse => exact (Skip.settles_recede sel p.position).map fun _ _ => trivial

theorem Cursor.settles_decrement (sel : Selection) (p : Position a d) :
    Settles (p.decrement (Skip.motion sel)) fun _ => True := by
  cases d with
  | forward => exact (Skip.settles_recede sel p.position).map fun _ _ => trivial
  | reverse => exact trivial

namespace Table

theorem settles_positionAt (t : Table D ν) (i : Nat) : Settles (t.positionAt a d i) fun _ => True := by
  obtain hi | hi := Nat.lt_or_ge D.count i
  · rw [t.positionAt_of_lt hi]
    exact nofun
  · have hIndex : (Skip.ofIndex i D.count : Except Fault (Skip a)) = .ok { index := i, stop := D.count } :=
      if_pos hi
    rw [positionAt, hIndex]
    cases d with
    | forward => exact trivial
    | reverse => exact Cursor.settles_increment (d := .reverse) _ _

theorem settles_positionFrom (t : Table D ν) (i : Nat) : Settles (t.positionFrom a i) fun _ => True :=
  settles_of_eq_ok (t.positionFrom_eq i) trivial

theorem settles_entryAt (h : t.Sound) (i : Nat) : Settles (t.entryAt a i) fun e => t.live e.ordinal = some e.value := by
  cases hEntry : t.entryAt a i with
  | ok e =>
    obtain ⟨hi, -, hv⟩ := Walk.finds_of_entryAt h.shows hEntry
    rwa [← hi] at hv
  | error f =>
    cases hi : t.live i with
    | none =>
      rw [entryAt_eq_error h.shows hi] at hEntry
      cases hEntry
      exact nofun
    | some v =>
      have hSome : (t.live i).isSome = true := by rw [hi]; rfl
      exact (Domain.keyAt_error (Walk.keyAt_of_entryAt h.shows hSome hEntry)).regular

theorem steady_modifyEntry (p : Position .writable d) (f : ν → ν) : Steady (modifyEntry p f : Action D ν _) := by
  intro t ht
  have hEntry := settles_entryAt (a := .writable) ht p.position.index
  refine ends_bind.mpr (ends_inspect ?_ fun g hg => ?_)
  · intro e he
    rw [he] at hEntry
    apply (modifyAt_ends ht.shows hEntry f).bind
    · exact fun _ u hu => hu.2.sound
    · exact fun f u => False.elim
  · rw [hg] at hEntry
    exact ⟨hEntry, ht⟩

end Table

theorem Origin.steady_obtain [Disposal ν] (origin : Origin κ ν a d) :
    Table.Steady (origin.obtain : Action D ν _) := by
  cases origin with
  | first => exact Table.steady_inspect fun t _ => t.settles_positionFrom 0
  | pastLast => exact Table.steady_inspect fun t _ => t.settles_positionAt D.count
  | last => exact Table.steady_inspect fun t _ => t.settles_positionAt D.count
  | beforeFirst => exact Table.steady_inspect (f := fun t => t.beforeFirst a) fun t _ => t.settles_positionAt 0
  | find k => exact Table.steady_inspect fun t _ => t.settles_positionAt _
  | insert k v => exact (Table.steady_insert k v).bind fun _ => Table.steady_pure _
  | assign k v => exact (Table.steady_assign k v).bind fun _ => Table.steady_pure _
  | emplace k make s =>
    exact (Table.steady_emplace k _ s fun s => settles_raising (make s).1).bind fun _ => Table.steady_pure _
  | eraseAt k => exact Table.steady_eraseAt k

namespace Tour

theorem settle_regular (p : Position a d) {x : Except Fault (Position a d)} (h : Settles x fun _ => True)
    {f : Fault} (hf : (settle (κ := κ) (ν := ν) p x).1 = .error f) : f.Regular := by
  cases x with
  | ok q => cases hf
  | error g =>
    cases hf
    exact h

theorem settleCopied_regular (p : Position a d) {x : Except Fault (Position a d × Position a d)}
    (h : Settles x fun _ => True) {f : Fault} (hf : (settleCopied (κ := κ) (ν := ν) p x).1 = .error f) :
    f.Regular := by
  cases x with
  | ok q => cases hf
  | error g =>
    cases hf
    exact h

theorem run_keeps (steps : Tour ν a d) (p : Position a d) (h : t.Sound) :
    (steps.run p t).2.Sound ∧ ∀ f, .error f ∈ (steps.run p t).1 → f.Regular := by
  induction steps generalizing t with
  | done => exact ⟨h, nofun⟩
  | increment rest ih =>
    obtain ⟨hLast, hFaults⟩ := ih (settle (κ := κ) (ν := ν) p (p.increment (t.motion _))).2 h
    exact ⟨hLast, regular_cons (fun f => settle_regular p (Cursor.settles_increment _ p)) hFaults⟩
  | decrement rest ih =>
    obtain ⟨hLast, hFaults⟩ := ih (settle (κ := κ) (ν := ν) p (p.decrement (t.motion _))).2 h
    exact ⟨hLast, regular_cons (fun f => settle_regular p (Cursor.settles_decrement _ p)) hFaults⟩
  | postIncrement rest ih =>
    have hMove := (Cursor.settles_increment t.occupancy.selection p).map
      (g := fun moved => (p, moved)) (R := fun _ => True) fun _ _ => trivial
    obtain ⟨hLast, hFaults⟩ := ih (settleCopied (κ := κ) (ν := ν) p (p.postIncrement (t.motion _))).2 h
    exact ⟨hLast, regular_cons (fun f => settleCopied_regular p hMove) hFaults⟩
  | postDecrement rest ih =>
    have hMove := (Cursor.settles_decrement t.occupancy.selection p).map
      (g := fun moved => (p, moved)) (R := fun _ => True) fun _ _ => trivial
    obtain ⟨hLast, hFaults⟩ := ih (settleCopied (κ := κ) (ν := ν) p (p.postDecrement (t.motion _))).2 h
    exact ⟨hLast, regular_cons (fun f => settleCopied_regular p hMove) hFaults⟩
  | @read a d rest ih =>
    obtain ⟨hLast, hFaults⟩ := ih (p.map Skip.seek) h
    have hEntry := (Table.settles_entryAt (a := a) h p.position.index).map (g := Sight.entry) (R := fun _ => True)
      fun _ _ => trivial
    constructor
    · exact hLast
    · apply regular_cons _ hFaults
      intro f hf
      rw [hf] at hEntry
      exact hEntry
  | modify f rest ih =>
    rw [run]
    obtain ⟨e, u, hRun, hu⟩ | ⟨g, u, hRun, hg, hu⟩ := (Table.steady_modifyEntry p f t h).ran
    · obtain ⟨hLast, hFaults⟩ := ih (p.map Skip.seek) hu
      rw [hRun]
      exact ⟨hLast, regular_cons nofun hFaults⟩
    · obtain ⟨hLast, hFaults⟩ := ih (p.map Skip.seek) hu
      rw [hRun]
      constructor
      · exact hLast
      · apply regular_cons _ hFaults
        rintro _ ⟨⟩
        exact hg
  | toReadOnly rest ih => exact ih p.toReadOnly h
  | base rest ih =>
    obtain ⟨hLast, hFaults⟩ := ih (Cursor.base (t.motion _) p) h
    exact ⟨hLast, regular_cons (fun f hf => nomatch hf) hFaults⟩

end Tour

end OrdinalMap
