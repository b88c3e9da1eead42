import OrdinalMap.Proofs.Pool
import OrdinalMap.Proofs.Table.Erase

/-! # Erasing entry by entry

Two loops that look for the next entry in the occupancy that they are changing. The one
that goes from key to key along the cursors that erasing gives ends where erasing the
range ends. The one that disposes of all values has cleared the table by itself, so that
the reset after it finds nothing to do.
-/

namespace OrdinalMap.Table

set_option autoImplicit false

variable {κ ν : Type} {D : Domain κ}

theorem Shows.keysFrom {t : Table D ν} {m : Nat → Option ν} (hD : D.Lawful) (h : t.Shows m) {start : Nat}
    (hStart : start ≤ D.count) :
    (D.keysFrom (fun i => (m i).isSome) start).Pairwise (fun k k' => D.ordinal k < D.ordinal k') ∧
      (∀ k, k ∈ D.keysFrom (fun i => (m i).isSome) start ↔ t.contains k = true ∧ start ≤ D.ordinal k) ∧
      (D.keysFrom (fun i => (m i).isSome) start).length = {k | t.contains k = true ∧ start ≤ D.ordinal k}.ncard := by
  refine ⟨?_, ?_, ?_⟩
  · apply List.pairwise_map.mp
    rw [hD.map_keysFrom _ hStart]
    exact pairwise_span _ start D.count
  · intro k
    rw [hD.mem_keysFrom, h.contains, and_comm]
  · rw [Domain.keysFrom, ← hD.ncard_eq_length]
    simp only [Bool.and_eq_true, decide_eq_true_iff, h.contains, and_comm]

variable [Disposal ν]

/-- From a live key on the loop erases the live keys in ascending order, one in each round.
It stops when it has erased them all, and leaves the very table that erasing the range
leaves, which returns the number of rounds. -/
theorem eraseOnward_exact [Disposal.Quiet ν] (hD : D.Lawful) {t : Table D ν} (ht : t.Reachable) {k : κ}
    (hk : t.contains k = true) :
    ∃ ks : List κ, ks.Pairwise (fun k k' => D.ordinal k < D.ordinal k') ∧
      (∀ k', k' ∈ ks ↔ t.contains k' = true ∧ D.ordinal k ≤ D.ordinal k') ∧
      ks.length = {k' | t.contains k' = true ∧ D.ordinal k ≤ D.ordinal k'}.ncard ∧
      (∀ limit, ∃ u, eraseOnward limit k t = .ok (ks.take limit, ks[limit]?) u) ∧
      ∃ w, (∀ limit, ks.length ≤ limit → eraseOnward limit k t = .ok (ks, none) w) ∧
        eraseRange (.included k) .unbounded t = .ok ks.length w := by
  have hShows := ht.sound.shows
  have hle := (hD.ordinal_lt k).le
  have hLive : (t.live (D.ordinal k)).isSome = true := (hShows.contains k).symm.trans hk
  obtain ⟨hAscending, hMem, hLength⟩ := hShows.keysFrom hD hle
  have hOrdinals := hD.map_keysFrom (fun i => (t.live i).isSome) hle
  obtain ⟨ks, hKeys⟩ := hD.keysFrom_eq_cons (p := fun i => (t.live i).isSome) hLive
  rw [hKeys] at hAscending hMem hLength hOrdinals
  have hLoop := eraseOnward_releases hD hShows hOrdinals
  refine ⟨k :: ks, hAscending, hMem, hLength, ?_, ?_⟩
  · intro limit
    obtain ⟨u, -, hRun⟩ := hLoop limit
    exact ⟨u, hRun⟩
  · -- the loop, stopped late enough, and the range release the same ordinals
    obtain ⟨w, hAll, hRange⟩ := eraseSpan_releases hShows (Nat.add_sub_of_le hle)
    refine ⟨w, ?_, ?_⟩
    · intro limit hLimit
      obtain ⟨u, hSame, hRun⟩ := hLoop limit
      rw [List.take_of_length_le (by simpa using hLimit), hOrdinals, hAll] at hSame
      cases hSame
      rw [hRun, List.take_of_length_le hLimit, List.getElem?_eq_none hLimit]
    · rw [eraseRange_eq hD (.included k) .unbounded hle, ← List.length_map D.ordinal, hOrdinals]
      exact hRange

/-- Two rounds, the second at the key under the cursor that the first gave. -/
theorem eraseOnward_exact_bool :
    let t : Table Domain.bool Nat :=
      (Pool.run [.call 0 (.keyed (.insert true 5)), .call 0 (.keyed (.insert false 6))] .start).2 0
    Domain.bool.Lawful ∧ t.Reachable ∧ t.contains false = true ∧
      ∃ w, eraseOnward 2 false t = .ok ([false, true], none) w ∧
        eraseRange (.included false) .unbounded t = .ok 2 w := by
  intro t
  have ht : t.Reachable := ⟨_, _, 0, rfl⟩
  have hk : t.contains false = true := by decide
  obtain ⟨ks, -, -, -, hLoop, w, hAll, hRange⟩ := eraseOnward_exact Domain.bool_lawful ht hk
  obtain ⟨u, hRun⟩ := hLoop 2
  have hResult : (match eraseOnward 2 false t with
      | .ok r _ => some r
      | .error _ _ => none) = some ([false, true], none) := by decide
  rw [hRun, Option.some.injEq, Prod.mk.injEq] at hResult
  have hLength := List.getElem?_eq_none_iff.mp hResult.2
  obtain rfl : ks = [false, true] := (List.take_of_length_le hLength).symm.trans hResult.1
  exact ⟨Domain.bool_lawful, ht, hk, w, hAll 2 le_rfl, hRange⟩

/-- Whatever the data of the domain, and whether or not values own something, clearing
leaves no bit and no size, unless it stops since a value cannot be given up. If there is
no such value, the loop releases in each round the next of the live ordinals, so that it
ends after as many rounds as there are entries, having disposed of each value once and
of nothing else. Size and occupancy agree after every round, and after the last one
nothing is left to reset. -/
theorem clear_exact {t : Table D ν} (ht : t.Reachable) :
    Ends clear t (fun _ u => u.occupancy = .empty ∧ u.size = 0)
      (fun f u => (∃ i, Disposal.StopsOn (t.live i) f) ∧ u.size = u.occupancy.size) ∧
    ∀ [Disposal.Quiet ν], ∃ is : List Nat, is.Pairwise (· < ·) ∧ (∀ i, i ∈ is ↔ t.holds i = true) ∧
      is.length = t.size ∧
      (∀ limit, ∃ u, releaseFrom limit 0 t = .ok () u ∧ releaseAll (is.take limit) t = .ok () u ∧
        u.size = t.size - limit ∧ u.size = u.occupancy.size ∧
        (∀ i, u.holds i = true ↔ t.holds i = true ∧ i ∉ is.take limit) ∧ Disposed (is.take limit) t u) ∧
      ∃ w, (∀ limit, t.size ≤ limit → releaseFrom limit 0 t = .ok () w) ∧ w.occupancy = .empty ∧ w.size = 0 ∧
        clear t = .ok () (if Disposal.needed ν = true then w else t.reset) := by
  have hSound := ht.sound
  have hShows := hSound.shows
  constructor
  · apply (clear_ends hShows).mono
    · exact fun _ _ hu => hu.isEmpty
    · exact fun _ _ hf => ⟨hf.1, hf.2.size_eq⟩
  intro _
  refine ⟨_, pairwise_span _ 0 D.capacity, fun _ => hShows.mem_span, hShows.length_span, ?_, ?_⟩
  · intro limit
    obtain ⟨u, hRun, hAll, hu, hSize, hSlots⟩ := releaseFrom_rounds hShows limit
    refine ⟨u, hRun, hAll, hSize, hu.sound.size_eq, ?_, hSlots⟩
    intro i
    rw [hu.holds, without, hShows.holds]
    split
    · rename_i hi
      exact iff_of_false Bool.false_ne_true fun h => h.2 hi
    · rename_i hi
      exact (and_iff_left hi).symm
  · obtain ⟨w, hEnd, hw⟩ := releaseFrom_finishes hShows
    obtain ⟨hOccupancy, hSize⟩ := hw.isEmpty
    have hCapacity : t.size ≤ D.capacity := hShows.size_eq ▸ Nat.count_le _
    refine ⟨w, hEnd, hOccupancy, hSize, ?_⟩
    obtain ⟨_, _, hRun, u, rfl, hu⟩ | ⟨_, _, _, ⟨_, hStop⟩, -⟩ := (clear_resets hShows).ran
    · rw [hRun]
      split at hu
      · rename_i hNeeded
        rw [hEnd D.capacity hCapacity] at hu
        cases hu
        rw [if_pos hNeeded, hw.reset_eq]
      · rename_i hNeeded
        rw [if_neg hNeeded, hu]
    · exact absurd hStop Disposal.Quiet.not_stopsOn

/-- Strings own something: in the end no slot holds a value. -/
theorem clear_exact_bool :
    let t : Table Domain.bool String :=
      (Pool.run [.call 0 (.keyed (.insert true "b")), .call 0 (.keyed (.insert false "a"))] .start).2 0
    t.Reachable ∧ ∃ w, releaseFrom 2 0 t = .ok () w ∧ clear t = .ok () w ∧ w.occupancy = .empty ∧ w.size = 0 ∧
      ∀ j (h : j < Domain.bool.slots), w.slots[j] = .unwritten := by
  intro t
  have ht : t.Reachable := ⟨_, _, 0, rfl⟩
  have hSize : t.size = 2 := by decide
  have hHolds : ∀ j < Domain.bool.slots, t.holds j = true := by decide
  obtain ⟨is, -, hMem, hLength, hRounds, w, hEnd, hOccupancy, hEmpty, hClear⟩ := (clear_exact ht).2
  obtain ⟨u, hRun, -, -, -, -, hSlots⟩ := hRounds 2
  rw [hEnd 2 hSize.le] at hRun
  cases hRun
  refine ⟨ht, w, hEnd 2 hSize.le, hClear, hOccupancy, hEmpty, ?_⟩
  intro j hj
  rw [hSlots j hj, List.take_of_length_le (hLength.trans hSize).le]
  exact if_pos ⟨rfl, (hMem j).mpr (hHolds j hj)⟩

end OrdinalMap.Table
