import OrdinalMap.Proofs.Pool.Failure
import OrdinalMap.Proofs.Table.Erase

/-! # What erasing a range leaves

A range of keys is erased by its ordinals, whatever kinds of bounds it has. Bounds out
of order are refused, and otherwise erasing the range is the same as a pass of the test
whether an ordinal lies in it.
-/

namespace OrdinalMap.Table

set_option autoImplicit false

variable {κ ν : Type} {D : Domain κ} [Disposal ν]

/-- Erasing a range, and the test for its ordinals. -/
theorem eraseIf_of_eraseRange [Disposal.Quiet ν] (hD : D.Lawful) {t u : Table D ν} (ht : t.Sound)
    {lower upper : Bound κ} {n : Nat}
    (hSize : n + u.size = t.size) (hu : u.Shows (cleared t.live (lower.first D) (upper.limit D)))
    {σ : Type} {test : σ → κ → ν → Except Fault Bool × σ}
    (hTest : ∀ s k v, (test s k v).1 = .ok (decide (lower.first D ≤ D.ordinal k ∧ D.ordinal k < upper.limit D)))
    (s : σ) : ∃ s' w, eraseIf test s t = .ok (n, s') w ∧ u.Untouched w := by
  have hShows := ht.shows
  obtain ⟨w, hRetain, hw, hLeft⟩ := retain_lists hD hShows (negated test) s
  obtain ⟨⟨s', hVerdict⟩, hSifted⟩ := sifted_of_answers hTest (D.listing t.live D.count 0) s
  have hListing : D.listing (cleared t.live (lower.first D) (upper.limit D)) D.count 0 =
      sifted (negated test) (D.listing t.live D.count 0) s := by
    rw [hSifted, listing_cleared]
    apply List.filter_congr
    intro e he
    rw [(hD.mem_listing.mp he).1]
  have hErased := hu.lists hD
  rw [hListing] at hErased
  have hUntouched : u.Untouched w := Shows.untouched hu.sound ⟨hw, hErased.live_eq hD hu.sound hw hLeft⟩
  refine ⟨s', w, ?_, hUntouched⟩
  rw [eraseIf_of_retain (by rw [hUntouched.size]; omega) hRetain, hVerdict, hUntouched.size, ← hSize,
    Nat.add_sub_cancel]
  rfl

/-- Bounds out of order are refused and nothing is erased. Else, if values can be given
up, exactly those entries are erased whose ordinals satisfy both bounds, their number is returned, and the same
becomes of the table, and the same number is returned, if it is erased by the test. What
is before a key and what begins with it are together all entries. -/
theorem eraseRange_exact (hD : D.Lawful) {t : Table D ν} (ht : t.Reachable) :
    (∀ lower upper : Bound κ,
      (upper.limit D < lower.first D → ∃ f, eraseRange lower upper t = .error f t ∧
        f.message = "range start " ++ toString (lower.first D) ++ " after end " ++ toString (upper.limit D)) ∧
      (∀ [Disposal.Quiet ν], lower.first D ≤ upper.limit D → ∃ n u, eraseRange lower upper t = .ok n u ∧
        n = {k | t.contains k = true ∧ lower.StartsBy D (D.ordinal k) ∧ upper.StopsAfter D (D.ordinal k)}.ncard ∧
        n + u.size = t.size ∧
        (∀ k, lower.StartsBy D (D.ordinal k) ∧ upper.StopsAfter D (D.ordinal k) → u.get? k = .ok none) ∧
        (∀ k, ¬ (lower.StartsBy D (D.ordinal k) ∧ upper.StopsAfter D (D.ordinal k)) → u.get? k = t.get? k) ∧
        ∀ {σ : Type} (test : σ → κ → ν → Except Fault Bool × σ) (s : σ),
          (∀ s k v, (test s k v).1 = .ok (decide (lower.first D ≤ D.ordinal k ∧ D.ordinal k < upper.limit D))) →
            ∃ s' w, eraseIf test s t = .ok (n, s') w ∧ u.Untouched w)) ∧
    ∀ [Disposal.Quiet ν] (k : κ), ∃ n n' u w, eraseRange .unbounded (.excluded k) t = .ok n u ∧
      eraseRange (.included k) .unbounded u = .ok n' w ∧ n + n' = t.size ∧ w.size = 0 ∧
      ∀ k', w.get? k' = .ok none := by
  have hSound := ht.sound
  have hShows := hSound.shows
  constructor
  · intro lower upper
    have hInside : ∀ k, (lower.first D ≤ D.ordinal k ∧ D.ordinal k < upper.limit D) ↔
        lower.StartsBy D (D.ordinal k) ∧ upper.StopsAfter D (D.ordinal k) :=
      fun k => and_congr lower.first_le_iff (upper.lt_limit_iff (hD.ordinal_lt k))
    constructor
    · intro hReversed
      exact ⟨_, eraseRange_reversed hD hReversed t, rfl⟩
    · intro _ hOrder
      obtain ⟨n, u, hRun, hSize, hu⟩ | ⟨_, _, _, hFalse⟩ := (eraseRange_ends hD hShows lower upper hOrder).ran
      · refine ⟨n, u, hRun, ?_, hSize, ?_, ?_, ?_⟩
        · simp only [ncard_erased hD hShows hu hSize, hInside]
        · intro k hk
          rw [hu.get, cleared, if_pos ((hInside k).mpr hk)]
        · intro k hk
          rw [hu.get, hShows.get, cleared, if_neg (mt (hInside k).mp hk)]
        · exact fun test s hTest => eraseIf_of_eraseRange hD hSound hSize hu hTest s
      · cases hFalse
  · intro _ k
    obtain ⟨n, n', u, w, hFirst, hSecond, hSize, hw⟩ := eraseRange_around hD hShows k
    refine ⟨n, n', u, w, hFirst, hSecond, hSize, ?_, fun k' => hw.get k'⟩
    simp [hw.size_eq]

/-- The test counts the entries it is shown. -/
theorem eraseRange_exact_bool :
    let t : Table Domain.bool Nat :=
      (Pool.run [.call 0 (.keyed (.insert true 5)), .call 0 (.keyed (.insert false 6))] .start).2 0
    let test : Nat → Bool → Nat → Except Fault Bool × Nat := fun s k _ => (.ok !k, s + 1)
    Domain.bool.Lawful ∧ t.Reachable ∧
      (∃ f, eraseRange (.included true) (.excluded false) t = .error f t ∧ f.message = "range start 1 after end 0") ∧
      ∃ n u, eraseRange .unbounded (.excluded true) t = .ok n u ∧ n + u.size = t.size ∧
        u.get? false = .ok none ∧ u.get? true = .ok (some 5) ∧
        ∃ s w, eraseIf test 0 t = .ok (n, s) w ∧ u.Untouched w := by
  intro t test
  have ht : t.Reachable := ⟨_, _, 0, rfl⟩
  obtain ⟨hRange, -⟩ := eraseRange_exact Domain.bool_lawful ht
  obtain ⟨f, hRefused, hMessage⟩ := (hRange (.included true) (.excluded false)).1 (by decide)
  obtain ⟨n, u, hRun, -, hSize, hErased, hLeft, hTest⟩ := (hRange .unbounded (.excluded true)).2 (by decide)
  refine ⟨Domain.bool_lawful, ht, ⟨f, hRefused, hMessage.trans (by decide)⟩, n, u, hRun, hSize, ?_, ?_, ?_⟩
  · exact hErased false ⟨trivial, Nat.zero_lt_one⟩
  · rw [hLeft true fun h => absurd h.2 (lt_irrefl _)]
    decide
  · apply hTest test 0
    intro s k v
    cases k <;> rfl

end OrdinalMap.Table
