import OrdinalMap.Proofs.Pool.Drain
import OrdinalMap.Proofs.Table.Collect

/-! # Taking tables apart and collecting them again

Whatever way the entries of a table are consumed, the table of what came out has
the same entries. The other way round, draining the table of a list of pairs gives
the list without repeated keys and in the order of the ordinals.
-/

namespace OrdinalMap.Table

set_option autoImplicit false

variable {κ ν : Type} {D : Domain κ}

theorem drain_listed (hD : D.Lawful) {t : Table D ν} (h : t.Sound) :
    ∃ pairs d, Drain.ends.drain .front (Drain.ofTable t) = .ok pairs d ∧ D.Ascending pairs ∧ t.Listed pairs := by
  obtain ⟨w, -, hw⟩ := Walk.ofTable_spans (a := .readOnly) h.shows
  obtain ⟨js, hWalk, hDrain⟩ := Drain.InStep.start hD h hw
  obtain rfl : js = span (fun i => (t.live i).isSome) 0 D.count := hWalk.ordinals.symm.trans hw.ordinals
  have hLimit := Nat.lt_succ_of_le hDrain.size_eq.ge
  obtain ⟨pairs, d, hRun, hOrdinals, hFound⟩ | ⟨_, _, _, hFalse⟩ := (Drain.collect_front hD hDrain hLimit).ran
  · refine ⟨pairs, d, hRun, ?_, .of_perm hD h (.of_eq hOrdinals) hFound⟩
    apply List.pairwise_map.mp
    rw [hOrdinals]
    exact pairwise_span _ 0 D.count
  · cases hFalse

variable [DecidableEq κ] [Disposal ν]

/-- On a lawful domain, collecting what a table yields gives the table back: drained
from the front, drained or walked over by any schedule that exhausts it. Draining
what was collected gives the first pair of each key, in the order of the ordinals, if
the values of the other pairs can be given up. -/
theorem collect_exact (hD : D.Lawful) :
    (∀ t : Table D ν, t.Reachable →
      (∃ pairs d, Drain.ends.drain .front (Drain.ofTable t) = .ok pairs d ∧ t.RebuiltBy pairs) ∧
      ∀ es : List End, t.size ≤ es.length →
        ((∀ r ∈ (Drain.ends.run es (Drain.ofTable t)).1, ∃ o, r = .ok o) ∧
          t.RebuiltBy (yielded (Drain.ends.run es (Drain.ofTable t)).1)) ∧
        ∀ a : Access, ∃ w : Walk a, Walk.ofTable a t = .ok w ∧
          (∀ r ∈ ((Walk.ends t).run es w).1, ∃ o, r = .ok o) ∧
          t.RebuiltBy ((yielded ((Walk.ends t).run es w).1).map fun e => (e.key, e.value))) ∧
    ∀ [Disposal.Quiet ν] (pairs : List (κ × ν)), ∃ (u : Table D ν) (d : Drain D ν), ofList pairs = .ok u ∧
      Drain.ends.drain .front (Drain.ofTable u) = .ok (D.sort (firstOccurrences pairs)) d ∧
      (D.Ascending pairs → D.sort (firstOccurrences pairs) = pairs) := by
  constructor
  · intro t ht
    have hSound := ht.sound
    constructor
    · obtain ⟨pairs, d, hDrain, -, hListed⟩ := drain_listed hD hSound
      exact ⟨pairs, d, hDrain, hListed.rebuilt hD hSound⟩
    · intro es hSize
      have hWalk : ∀ a : Access, ∃ w : Walk a, Walk.ofTable a t = .ok w ∧ Drain.InStep t w (Drain.ofTable t) ∧
          (∀ r ∈ ((Walk.ends t).run es w).1, ∃ o, r = .ok o) ∧
          t.Listed ((yielded ((Walk.ends t).run es w).1).map fun e => (e.key, e.value)) := by
        intro a
        obtain ⟨w, hOf, hw⟩ := Walk.ofTable_spans (a := a) hSound.shows
        exact ⟨w, hOf, .start hD hSound hw, Walk.run_listed hD hSound hw hSize⟩
      constructor
      · obtain ⟨w, -, hInStep, hNoFault, hListed⟩ := hWalk .readOnly
        rw [(hInStep.run hD hSound es).1, yielded_map]
        refine ⟨?_, hListed.rebuilt hD hSound⟩
        intro r hr
        obtain ⟨r', hr', rfl⟩ := List.mem_map.mp hr
        obtain ⟨o, rfl⟩ := hNoFault r' hr'
        exact ⟨_, rfl⟩
      · intro a
        obtain ⟨w, hOf, -, hNoFault, hListed⟩ := hWalk a
        exact ⟨w, hOf, hNoFault, hListed.rebuilt hD hSound⟩
  · intro _ pairs
    obtain ⟨u, hOf, hu⟩ := ofList_shows hD pairs
    obtain ⟨pairs', d, hDrain, hAscending, hListed⟩ := drain_listed hD hu.sound
    have hFirst := listed_firstOccurrences hD hu
    have hSorted : ∀ {l : List (κ × ν)}, D.Ascending l → (∀ p, p ∈ l ↔ p ∈ firstOccurrences pairs) →
        D.sort (firstOccurrences pairs) = l := by
      intro l hl hMem
      apply (hD.ascending_sort hFirst.nodup).eq_of_mem hl
      intro p
      rw [hMem]
      exact (List.mergeSort_perm _ _).mem_iff
    refine ⟨u, d, hOf, ?_, ?_⟩
    · rw [hDrain, hSorted hAscending fun p => (hListed.mem_iff p).trans (hFirst.mem_iff p).symm]
    · intro hPairs
      exact hSorted hPairs fun p => (mem_iff_lookup hPairs.nodup p).trans (mem_firstOccurrences pairs p).symm

/-- Taken from the back first, and a list with a repeated key. -/
theorem collect_exact_bool :
    let t : Table Domain.bool Nat :=
      (Pool.run [.call 0 (.keyed (.insert true 5)), .call 0 (.keyed (.insert false 6))] .start).2 0
    Domain.bool.Lawful ∧ t.Reachable ∧ t.size ≤ 2 ∧
      t.RebuiltBy (yielded (Drain.ends.run [.back, .front] (Drain.ofTable t)).1) ∧
      (Domain.bool.Ascending [(false, 6), (true, 5)] ∧
        Domain.bool.sort (firstOccurrences [(false, 6), (true, 5)]) = [(false, 6), (true, 5)]) ∧
      ∃ (u : Table Domain.bool Nat) (d : Drain Domain.bool Nat), ofList [(true, 5), (false, 6), (true, 7)] = .ok u ∧
        Drain.ends.drain .front (Drain.ofTable u) =
          .ok (Domain.bool.sort (firstOccurrences [(true, 5), (false, 6), (true, 7)])) d := by
  intro t
  have hReachable : t.Reachable := ⟨_, _, 0, rfl⟩
  have hSize : t.size ≤ 2 := by decide
  have hAscending : Domain.bool.Ascending [(false, 6), (true, 5)] := by
    unfold Domain.Ascending
    decide
  obtain ⟨hRebuilt, hCollected⟩ := collect_exact (ν := Nat) Domain.bool_lawful
  obtain ⟨⟨-, hDrained⟩, -⟩ := (hRebuilt t hReachable).2 [.back, .front] hSize
  obtain ⟨-, -, -, -, hSelf⟩ := hCollected [(false, 6), (true, 5)]
  obtain ⟨u, d, hOf, hDrain, -⟩ := hCollected [(true, 5), (false, 6), (true, 7)]
  exact ⟨Domain.bool_lawful, hReachable, hSize, hDrained, ⟨hAscending, hSelf hAscending⟩, u, d, hOf, hDrain⟩

end OrdinalMap.Table
