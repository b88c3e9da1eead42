import OrdinalMap.Proofs.Pool
import OrdinalMap.Proofs.Table.Schedule
import Mathlib.Data.Set.Card

/-! # Walks over the tables of a program

Walking over a table that a program has reached. On a lawful domain a walk
yields each entry exactly once, from either end in order. On any domain it lends
each entry at most once, so that writes through the loans change what was lent
and nothing else.
-/

namespace OrdinalMap

set_option autoImplicit false

variable {κ ν : Type} {D : Domain κ}

namespace Walk

theorem remaining_eq_ncard {t : Table D ν} {a : Access} {w : Walk a} {left : List Nat} (hNodup : left.Nodup)
    {x : Nat} (hw : w.Spans D (fun i => (t.live i).isSome) left x) (hx : x = 0) {s : Set Nat}
    (hs : ∀ i, i ∈ s ↔ i ∈ left) : w.remaining = s.ncard := by
  have hSet : s = left.toFinset := by
    ext i
    rw [hs, Finset.mem_coe, List.mem_toFinset]
  rw [hw.remaining, hx, hSet, Set.ncard_coe_finset, List.toFinset_card_of_nodup hNodup, Nat.add_zero]

/-- A schedule of pulls on a walk over a table of a lawful domain. `next` yields
entries in ascending order and `nextBack` in descending order, together none of
them twice and each as the table has it. At any time the walk tells how many are
left, and it has nothing to yield only when none are, which then stays so. -/
theorem schedule_exact (hD : D.Lawful) {t : Table D ν} (ht : t.Reachable) (a : Access) :
    ∃ w : Walk a, ofTable a t = .ok w ∧ ∀ es : List End,
      let rs := ((ends t).run es w).1
      let u := ((ends t).run es w).2
      (∀ r ∈ rs, ∃ o, r = .ok o) ∧
      ((yieldedAt .front es rs).map Entry.ordinal).Pairwise (· < ·) ∧
      ((yieldedAt .back es rs).map Entry.ordinal).Pairwise (· > ·) ∧
      ((yielded rs).map Entry.ordinal).Nodup ∧
      (∀ e ∈ yielded rs, t.holds e.ordinal = true ∧ D.values[e.ordinal]? = some e.key ∧
        t.get? e.key = .ok (some e.value)) ∧
      (ends t).remaining u = {i | t.holds i = true ∧ i ∉ (yielded rs).map Entry.ordinal}.ncard ∧
      (∀ e u', (ends t).pull e u = .ok none u' →
        (∀ i, t.holds i = true → i ∈ (yielded rs).map Entry.ordinal) ∧
          ∀ es', ∀ r ∈ ((ends t).run es' u').1, r = .ok none) ∧
      (t.size ≤ es.length → ∀ i, t.holds i = true → i ∈ (yielded rs).map Entry.ordinal) := by
  have hSound := ht.sound
  obtain ⟨w, hOf, hw⟩ := ofTable_spans (a := a) hSound.shows
  refine ⟨w, hOf, fun es => ?_⟩
  intro rs u
  obtain ⟨left, hCovers⟩ := run_covers hD hSound.shows hw es
  have hLength : rs.length = es.length := TwoEnded.length_run es w
  have hAscending := pairwise_span (fun i => (t.live i).isSome) 0 D.count
  have hNodup := hCovers.nodup hLength (nodup_span _ 0 D.count)
  have hLeft : ∀ i, i ∈ left ↔ t.holds i = true ∧ i ∉ (yielded rs).map Entry.ordinal := by
    intro i
    rw [hCovers.mem_left hLength (nodup_span _ 0 D.count), mem_span_holds hD hSound]
  have hAll : left = [] → ∀ i, t.holds i = true → i ∈ (yielded rs).map Entry.ordinal := by
    rintro rfl i hi
    by_contra hNot
    cases (hLeft i).mpr ⟨hi, hNot⟩
  refine ⟨hCovers.noFault, hCovers.front_ascending hAscending, hCovers.back_descending hAscending,
    hNodup.of_append_left, ?_, ?_, ?_, ?_⟩
  · intro e he
    obtain ⟨-, hKey, hValue⟩ := hCovers.found e he
    exact ⟨hSound.shows.holds_of_some hValue, hKey, hSound.shows.get_listed hD hKey hValue⟩
  · refine remaining_eq_ncard hNodup.of_append_right hCovers.spans ?_ fun i => (hLeft i).symm
    rw [length_span_holds hD hSound, Nat.sub_self]
  · intro e u' hPull
    have hEnds := pull_lawful hD hSound.shows hCovers.spans e
    rw [Ends, hPull] at hEnds
    obtain ⟨hNil, -, rfl⟩ | ⟨_, _, _, _, hSome, _⟩ := hEnds
    · constructor
      · exact hAll hNil
      · rw [hNil] at hCovers
        exact run_exhausted hD hSound.shows hCovers.spans
    · cases hSome
  · intro hSize
    apply hAll
    rw [← List.length_eq_zero_iff, hCovers.length, length_span_holds hD hSound]
    exact Nat.sub_eq_zero_of_le hSize

theorem schedule_exact_bool :
    let t : Table Domain.bool Nat :=
      (Pool.run [.call 0 (.keyed (.insert true 5)), .call 0 (.keyed (.insert false 6))] .start).2 0
    Domain.bool.Lawful ∧ t.Reachable ∧ ∃ w : Walk .writable, ofTable .writable t = .ok w ∧
      ∀ i, t.holds i = true → i ∈ (yielded ((ends t).run [.back, .front] w).1).map Entry.ordinal := by
  intro t
  have hReachable : t.Reachable := ⟨_, _, 0, rfl⟩
  obtain ⟨w, hOf, hExact⟩ := schedule_exact Domain.bool_lawful hReachable .writable
  obtain ⟨-, -, -, -, -, -, -, hAll⟩ := hExact [.back, .front]
  exact ⟨Domain.bool_lawful, hReachable, w, hOf, hAll le_rfl⟩

end Walk

namespace Lending

/-- Loans of the entries of one table are apart, and a table keeps everything but
what is written through them. The last conjunct follows one loan: in the end the
table has what its holder wrote last, or the value that was found. -/
theorem run_apart [Disposal ν] (commands : List (Command κ ν)) (r : Nat) :
    let t : Table D ν := (Pool.run commands .start).2 r
    ∃ w, Walk.ofTable .writable t = .ok w ∧
      (∀ cs : List (LoanCall ν),
        let rs := (Lending.run cs { table := t, walk := w, loans := [] }).1
        let s := (Lending.run cs { table := t, walk := w, loans := [] }).2
        ((yielded rs).map Entry.ordinal).Nodup ∧
        (∀ e ∈ yielded rs, e.ordinal < D.slots ∧ t.holds e.ordinal = true ∧ t.live e.ordinal = some e.value) ∧
        (∀ b, .error (.breach b) ∉ rs) ∧
        s.table.occupancy = t.occupancy ∧ s.table.size = t.size ∧
        ∀ i, i ∉ (yielded rs).map Entry.ordinal → s.table.live i = t.live i) ∧
      ∀ cs e cs' found,
        let s := (Lending.run cs { table := t, walk := w, loans := [] }).2
        (Lending.pull e s).1 = .ok (some found) →
          (Lending.run (cs ++ .pull e :: cs') { table := t, walk := w, loans := [] }).2.table.live found.ordinal =
            some (cs'.foldl (LoanCall.seenBy s.loans.length) found.value) := by
  intro t
  have hSound : t.Sound := (Pool.sound_start.run commands).1 r
  obtain ⟨w, hOf, hw⟩ := Walk.ofTable_spans (a := .writable) hSound.shows
  rw [show (fun i => (t.live i).isSome) = t.holds from funext hSound.isSome_live] at hw
  have hStart := Keeps.start hSound hw
  refine ⟨w, hOf, ?_, ?_⟩
  · intro cs rs s
    obtain ⟨rest, hKeeps, hFaults⟩ := hStart.run cs
    have hLent : s.lent = (yielded rs).map Entry.ordinal := lent_run cs _
    rw [← hLent]
    refine ⟨hKeeps.apart.of_append_left, ?_, ?_, hKeeps.occupancy, hKeeps.size, hKeeps.others⟩
    · intro e he
      have hLive := hStart.run_found cs e he
      exact ⟨hSound.shows.lt_slots hLive, hSound.shows.holds_of_some hLive, hLive⟩
    · exact fun b hb => hFaults _ hb b rfl
  · intro cs e cs' found s hPull
    obtain ⟨rest, hKeeps, -⟩ := hStart.run cs
    obtain ⟨-, hLoans⟩ := hKeeps.found hPull
    obtain ⟨_, hPulled, -⟩ := hKeeps.pull e
    have hLoan : (Lending.pull e s).2.loans[s.loans.length]? = some ⟨found.ordinal, found.value⟩ := by
      rw [hLoans]
      exact List.getElem?_concat_length
    obtain ⟨_, hLast, -⟩ := hPulled.run cs'
    rw [run_append]
    exact hLast.lent_live _ (List.mem_of_getElem? (hPulled.loan_run hLoan cs'))

end Lending

end OrdinalMap
