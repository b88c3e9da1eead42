import OrdinalMap.Proofs.Pool
import OrdinalMap.Proofs.Table.Model
import OrdinalMap.Proofs.Table.Schedule
import OrdinalMap.Proofs.Twin

/-! # Draining the tables of a program

A drain looks for its next entry in what is left of its table, a walk moves its
two ends through a table that stays as it is. On a lawful domain both stand before
the same ordinals after every schedule, so that they yield the same entries.
-/

namespace OrdinalMap.Drain

set_option autoImplicit false

variable {κ ν : Type} {D : Domain κ} {t : Table D ν} {a : Access}

/-- The walk and the drain, both of one table, have the same ordinals before them. -/
def InStep (t : Table D ν) (w : Walk a) (d : Drain D ν) : Prop :=
  ∃ js, w.Spans D (fun i => (t.live i).isSome) js 0 ∧ d.Spans t.live js

theorem InStep.start (hD : D.Lawful) (h : t.Sound) {w : Walk a}
    (hw : w.Spans D (fun i => (t.live i).isSome) (span (fun i => (t.live i).isSome) 0 D.count)
      (t.size - (span (fun i => (t.live i).isSome) 0 D.count).length)) : InStep t w (ofTable t) := by
  rw [Walk.length_span_holds hD h, Nat.sub_self] at hw
  have hMem : ∀ {i}, i ∈ span (fun i => (t.live i).isSome) 0 D.count ↔ t.holds i = true :=
    Walk.mem_span_holds hD h
  have hKeeping : keeping t.live (span (fun i => (t.live i).isSome) 0 D.count) = t.live := by
    funext i
    rw [keeping]
    split
    · rfl
    · rename_i hi
      rw [hMem, Bool.not_eq_true] at hi
      exact (Table.live_of_not_holds hi).symm
  refine ⟨_, hw, ?_⟩
  exact {
    shows := hKeeping.symm ▸ h.shows
    ascending := pairwise_span _ 0 D.count
    live := fun i hi => (mem_span.mp hi).2.2
    front_le := fun i _ => Nat.zero_le i
    lt_back := fun i hi => (mem_span.mp hi).2.1 }

theorem InStep.pull (hD : D.Lawful) (h : t.Sound) {w : Walk a} {d : Drain D ν} (hInStep : InStep t w d) (e : End) :
    Twin ((Walk.ends t).pull e) (ends.pull e) w d
      (fun r r' w' d' => r' = r.map (fun e => (e.key, e.value)) ∧ InStep t w' d') (fun _ _ _ _ => False) := by
  obtain ⟨js, hw, hd⟩ := hInStep
  obtain ⟨r, w', hWalk, hPulls⟩ | ⟨_, _, _, hFalse⟩ := (Walk.pull_lawful hD h.shows hw e).ran
  · obtain ⟨r', d', hDrain, hDrained⟩ | ⟨_, _, _, hFalse⟩ := (pull_lawful hD hd e).ran
    · apply twin_of_ok hWalk hDrain
      obtain ⟨hNil, rfl, rfl⟩ | ⟨i, rest, found, hTakes, rfl, ⟨-, hKey, hValue⟩, hLeft⟩ := hPulls
      · obtain ⟨-, rfl, rfl⟩ | ⟨j, rest, _, hTakes, _⟩ := hDrained
        · exact ⟨rfl, js, hw, hd⟩
        · rw [hNil] at hTakes
          cases hTakes.perm.nil_eq
      · obtain ⟨hNil, -⟩ | ⟨j, rest', p, hTakes', rfl, hKey', hValue', hLeft'⟩ := hDrained
        · rw [hNil] at hTakes
          cases hTakes.perm.nil_eq
        · obtain ⟨rfl, rfl⟩ := hTakes.unique hTakes'
          rw [hKey, Option.some.injEq] at hKey'
          rw [hValue, Option.some.injEq] at hValue'
          refine ⟨?_, rest, hLeft, hLeft'⟩
          rw [Option.map_some, hKey', hValue']
    · cases hFalse
  · cases hFalse

theorem InStep.run (hD : D.Lawful) (h : t.Sound) {w : Walk a} {d : Drain D ν} (hInStep : InStep t w d)
    (es : List End) :
    (ends.run es d).1 = ((Walk.ends t).run es w).1.map (Except.map (Option.map fun e => (e.key, e.value))) ∧
      InStep t ((Walk.ends t).run es w).2 (ends.run es d).2 := by
  apply TwoEnded.run_twin (R := InStep t) _ es hInStep
  intro e w d hInStep
  exact (hInStep.pull hD h e).mono (fun _ _ _ _ hr => hr) fun _ _ _ _ => False.elim

/-- A schedule of pulls on a drain of a table of a lawful domain, and on a walk
over the same table. Call by call both yield the same, at any time both tell the
same number of entries to come, and the table in the drain answers as the one that
was given up does with the entries that have been yielded left out. -/
theorem run_follows_walk (hD : D.Lawful) {t : Table D ν} (ht : t.Reachable) (a : Access) :
    ∃ w : Walk a, Walk.ofTable a t = .ok w ∧ ∀ es : List End,
      let rs := ((Walk.ends t).run es w).1
      let u := ((Walk.ends t).run es w).2
      let drained := (ends.run es (ofTable t)).1
      let d := (ends.run es (ofTable t)).2
      drained = rs.map (Except.map (Option.map fun e => (e.key, e.value))) ∧
      (∀ r ∈ drained, ∃ o, r = .ok o) ∧
      ends.remaining d = (Walk.ends t).remaining u ∧
      ∃ m, d.table.Agrees m ∧ (∀ k ∈ (yielded drained).map Prod.fst, m k = none) ∧
        ∀ k ∉ (yielded drained).map Prod.fst, t.get? k = .ok (m k) := by
  have hSound := ht.sound
  obtain ⟨w, hOf, hw⟩ := Walk.ofTable_spans (a := a) hSound.shows
  refine ⟨w, hOf, fun es => ?_⟩
  intro rs u drained d
  obtain ⟨hSame, left, hWalk, hDrain⟩ := (InStep.start hD hSound hw).run hD hSound es
  obtain ⟨left', hCovers⟩ := Walk.run_covers hD hSound.shows hw es
  obtain rfl : left' = left := hCovers.spans.ordinals.symm.trans hWalk.ordinals
  have hLeft : ∀ i, i ∈ left' ↔ t.holds i = true ∧ i ∉ (yielded rs).map Entry.ordinal := by
    intro i
    rw [hCovers.mem_left (TwoEnded.length_run es w) (nodup_span _ 0 D.count), Walk.mem_span_holds hD hSound]
  have hKeys : ∀ k, k ∈ (yielded drained).map Prod.fst ↔ D.ordinal k ∈ (yielded rs).map Entry.ordinal := by
    intro k
    rw [show drained = _ from hSame, yielded_map, List.map_map, List.mem_map, List.mem_map]
    refine exists_congr fun e => and_congr_right fun he => ?_
    rw [Function.comp_apply, ← hD.ordinal_eq (hCovers.found e he).2.1]
    exact hD.ordinal_injective.eq_iff.symm
  refine ⟨hSame, ?_, ?_, _, hDrain.shows.agrees_ordinal hD, ?_, ?_⟩
  · intro r hr
    rw [show drained = _ from hSame] at hr
    obtain ⟨r', hr', rfl⟩ := List.mem_map.mp hr
    obtain ⟨o, rfl⟩ := hCovers.noFault r' hr'
    exact ⟨_, rfl⟩
  · exact hDrain.size_eq.trans hWalk.remaining.symm
  · intro k hk
    rw [hKeys] at hk
    exact if_neg fun hMem => ((hLeft _).mp hMem).2 hk
  · intro k hk
    rw [hKeys] at hk
    rw [hSound.shows.get, keeping]
    split
    · rfl
    · rename_i hNot
      have hVacant : t.holds (D.ordinal k) = false := by
        rw [← Bool.not_eq_true]
        exact fun hHolds => hNot ((hLeft _).mpr ⟨hHolds, hk⟩)
      rw [Table.live_of_not_holds hVacant]

theorem run_follows_walk_bool :
    let t : Table Domain.bool Nat :=
      (Pool.run [.call 0 (.keyed (.insert true 5)), .call 0 (.keyed (.insert false 6))] .start).2 0
    Domain.bool.Lawful ∧ t.Reachable ∧ ∃ w : Walk .readOnly, Walk.ofTable .readOnly t = .ok w ∧
      ((Walk.ends t).run [.back, .front, .front] w).1.map (Except.map (Option.map fun e => (e.key, e.value))) =
        [.ok (some (true, 5)), .ok (some (false, 6)), .ok none] := by
  intro t
  have hReachable : t.Reachable := ⟨_, _, 0, rfl⟩
  obtain ⟨w, hOf, hFollows⟩ := run_follows_walk Domain.bool_lawful hReachable .readOnly
  refine ⟨Domain.bool_lawful, hReachable, w, hOf, ?_⟩
  rw [← (hFollows [.back, .front, .front]).1]
  decide

end OrdinalMap.Drain
