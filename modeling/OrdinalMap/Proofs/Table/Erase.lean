import OrdinalMap.Proofs.Table.Model
import OrdinalMap.Proofs.Table.Release
import OrdinalMap.Proofs.Table.Retain

/-! # Ranges of ordinals

On a lawful domain two bounds make a half-open interval of ordinals, without overflow.
Erasing a range clears the partial function of the table on that interval, and a test
that only asks for the interval passes the same entries.
-/

namespace OrdinalMap

set_option autoImplicit false

variable {κ ν : Type} {D : Domain κ}

namespace Bound

/-- The first ordinal of a range with this lower bound. -/
def first (D : Domain κ) : Bound κ → Nat
  | included k => D.ordinal k
  | excluded k => D.ordinal k + 1
  | unbounded => 0

/-- The first ordinal after a range with this upper bound. -/
def limit (D : Domain κ) : Bound κ → Nat
  | included k => D.ordinal k + 1
  | excluded k => D.ordinal k
  | unbounded => D.count

/-- A range with this lower bound does not leave out `i`. -/
def StartsBy (D : Domain κ) : Bound κ → Nat → Prop
  | included k, i => D.ordinal k ≤ i
  | excluded k, i => D.ordinal k < i
  | unbounded, _ => True

def StopsAfter (D : Domain κ) : Bound κ → Nat → Prop
  | included k, i => i ≤ D.ordinal k
  | excluded k, i => i < D.ordinal k
  | unbounded, _ => True

variable {i : Nat}

theorem first_le_iff (b : Bound κ) : b.first D ≤ i ↔ b.StartsBy D i := by
  cases b with
  | included k => rfl
  | excluded k => exact Nat.succ_le_iff
  | unbounded => exact iff_of_true (Nat.zero_le i) trivial

theorem lt_limit_iff (hi : i < D.count) (b : Bound κ) : i < b.limit D ↔ b.StopsAfter D i := by
  cases b with
  | included k => exact Nat.lt_succ_iff
  | excluded k => rfl
  | unbounded => exact iff_of_true hi trivial

theorem after_eq (hD : D.Lawful) (k : κ) : after D k = .ok (D.ordinal k + 1) := by
  have hlt := hD.ordinal_lt k
  have hCount := D.count_lt
  exact if_pos (by omega)

theorem start_eq (hD : D.Lawful) (b : Bound κ) : b.start D = .ok (b.first D) := by
  cases b with
  | included k => rfl
  | excluded k => exact after_eq hD k
  | unbounded => rfl

theorem stop_eq (hD : D.Lawful) (b : Bound κ) : b.stop D = .ok (b.limit D) := by
  cases b with
  | included k => exact after_eq hD k
  | excluded k => rfl
  | unbounded => rfl

theorem limit_le (hD : D.Lawful) (b : Bound κ) : b.limit D ≤ D.count := by
  cases b with
  | included k => exact hD.ordinal_lt k
  | excluded k => exact (hD.ordinal_lt k).le
  | unbounded => exact le_rfl

end Bound

namespace Table

variable {t : Table D ν} {m : Nat → Option ν}

/-- A partial function without its values from `start` on and below `stop`. -/
def cleared (m : Nat → Option ν) (start stop : Nat) (i : Nat) : Option ν :=
  if start ≤ i ∧ i < stop then none else m i

theorem without_span (m : Nat → Option ν) (start stop : Nat) :
    without m (span (fun i => (m i).isSome) start stop) = cleared m start stop := by
  funext i
  rw [without, cleared]
  cases hi : m i with
  | none => simp
  | some v => simp [mem_span, hi]

theorem ncard_erased (hD : D.Lawful) (h : t.Shows m) {u : Table D ν} {start stop n : Nat}
    (hu : u.Shows (cleared m start stop)) (hSize : n + u.size = t.size) :
    n = {k | t.contains k = true ∧ start ≤ D.ordinal k ∧ D.ordinal k < stop}.ncard := by
  have hFinite : {k | (m (D.ordinal k)).isSome = true}.Finite :=
    (List.finite_toSet D.values).subset fun k _ => hD.listed k
  have hSubset : {k | (cleared m start stop (D.ordinal k)).isSome = true} ⊆ {k | (m (D.ordinal k)).isSome = true} := by
    intro k hk
    rw [Set.mem_ofPred_eq, cleared] at hk
    split at hk
    · cases hk
    · exact hk
  have hErased : {k | t.contains k = true ∧ start ≤ D.ordinal k ∧ D.ordinal k < stop} =
      {k | (m (D.ordinal k)).isSome = true} \ {k | (cleared m start stop (D.ordinal k)).isSome = true} := by
    ext k
    by_cases hk : start ≤ D.ordinal k ∧ D.ordinal k < stop
    · simp [h.contains, cleared, hk]
    · simp only [Set.mem_ofPred_eq, Set.mem_sdiff, h.contains, cleared, hk, and_false, if_false, and_not_self_iff]
  have hAll := Set.ncard_sdiff_add_ncard_of_subset hSubset hFinite
  rw [← hErased, ← (h.agrees_ordinal hD).size, ← (hu.agrees_ordinal hD).size] at hAll
  omega

section Disposal

variable [Disposal ν]

theorem eraseRange_eq (hD : D.Lawful) (lower upper : Bound κ) (hOrder : lower.first D ≤ upper.limit D)
    (t : Table D ν) : eraseRange lower upper t = eraseSpan (upper.limit D - lower.first D) (lower.first D) t := by
  simp only [eraseRange, bind, EStateM.bind, inspect, lower.start_eq hD, upper.stop_eq hD,
    if_neg (Nat.not_lt.mpr hOrder), Nat.min_eq_left (upper.limit_le hD)]

section Quiet

variable [Disposal.Quiet ν]

/-- The entries of a span that are erased and those that are left are together all entries. -/
theorem eraseSpan_ends (h : t.Shows m) {count start stop : Nat} (hStop : start + count = stop) :
    Ends (eraseSpan count start) t (fun n u => n + u.size = t.size ∧ u.Shows (cleared m start stop))
      (fun _ _ => False) := by
  have hLive : ∀ i ∈ span (fun i => (m i).isSome) start stop, (m i).isSome = true :=
    fun i hi => (mem_span.mp hi).2.2
  obtain ⟨u, -, hRun, hu, hSize, -⟩ := (eraseSpan_releases h hStop).ends h (nodup_span _ start stop) hLive
  rw [Ends, hRun, ← without_span]
  exact ⟨(Nat.add_comm ..).trans hSize, hu⟩

theorem eraseRange_ends (hD : D.Lawful) (h : t.Shows m) (lower upper : Bound κ)
    (hOrder : lower.first D ≤ upper.limit D) :
    Ends (eraseRange lower upper) t
      (fun n u => n + u.size = t.size ∧ u.Shows (cleared m (lower.first D) (upper.limit D)))
      (fun _ _ => False) := by
  rw [Ends, eraseRange_eq hD lower upper hOrder]
  exact eraseSpan_ends h (Nat.add_sub_of_le hOrder)

/-- What is before a key and what begins with it are together all entries. -/
theorem eraseRange_around (hD : D.Lawful) (h : t.Shows m) (k : κ) :
    ∃ n n' u w, eraseRange .unbounded (.excluded k) t = .ok n u ∧ eraseRange (.included k) .unbounded u = .ok n' w ∧
      n + n' = t.size ∧ w.Shows fun _ => none := by
  have hk := hD.ordinal_lt k
  obtain ⟨n, u, hFirst, hSize, hu⟩ | ⟨_, _, _, hFalse⟩ :=
    (eraseRange_ends hD h .unbounded (.excluded k) (Nat.zero_le _)).ran
  · obtain ⟨n', w, hSecond, hSize', hw⟩ | ⟨_, _, _, hFalse⟩ :=
      (eraseRange_ends hD hu (.included k) .unbounded hk.le).ran
    · have hNone : cleared (cleared m 0 (D.ordinal k)) (D.ordinal k) D.count = fun _ => none := by
        funext i
        rw [cleared, cleared]
        split
        · rfl
        · split
          · rfl
          · cases hi : m i with
            | none => rfl
            | some v =>
              have hlt := hD.capacity_eq ▸ h.lt_capacity hi
              omega
      replace hw : w.Shows fun _ => none := hNone ▸ hw
      have hEmpty : w.size = 0 := by simp [hw.size_eq]
      exact ⟨n, n', u, w, hFirst, hSecond, by omega, hw⟩
    · cases hFalse
  · cases hFalse

end Quiet

theorem eraseRange_reversed (hD : D.Lawful) {lower upper : Bound κ} (hReversed : upper.limit D < lower.first D)
    (t : Table D ν) :
    eraseRange lower upper t = .error (.rangeReversed (lower.first D) (upper.limit D)) t := by
  have hEnds : Ends (eraseRange lower upper) t (fun _ _ => False)
      (fun f u => f = .rangeReversed (lower.first D) (upper.limit D) ∧ u = t) := by
    refine ends_bind.mpr ((ends_inspect_ok (lower.start_eq hD)).mpr (ends_bind.mpr ?_))
    refine (ends_inspect_ok (upper.stop_eq hD)).mpr ?_
    rw [if_pos hReversed]
    exact ⟨rfl, rfl⟩
  obtain ⟨_, _, _, hFalse⟩ | ⟨_, _, hRun, rfl, rfl⟩ := hEnds.ran
  · cases hFalse
  · exact hRun

end Disposal

/-! ## The same range as a test -/

theorem listing_cleared (D : Domain κ) (m : Nat → Option ν) (start stop count first : Nat) :
    D.listing (cleared m start stop) count first =
      (D.listing m count first).filter fun e => !decide (start ≤ e.ordinal ∧ e.ordinal < stop) := by
  rw [Domain.listing, Domain.listing, List.filter_filterMap]
  apply List.filterMap_congr
  intro i _
  have hOrdinal : ∀ e ∈ D.entryOf? m i, e.ordinal = i := fun e he => (Domain.entryOf?_eq_some.mp he).1
  by_cases hInside : start ≤ i ∧ i < stop
  · rw [Domain.entryOf?_of_none (if_pos hInside), Eq.comm, Option.filter_eq_none_iff]
    intro e he
    simp [hOrdinal e he, hInside]
  · have hSame : D.entryOf? (cleared m start stop) i = D.entryOf? m i := by
      simp only [Domain.entryOf?, cleared, if_neg hInside]
    rw [hSame]
    cases hEntry : D.entryOf? m i with
    | none => rfl
    | some e =>
      have hKept : (!decide (start ≤ e.ordinal ∧ e.ordinal < stop)) = true := by
        rw [hOrdinal e hEntry, decide_eq_false hInside]
        rfl
      rw [Option.filter_some, if_pos hKept]

theorem Lists.live_eq (hD : D.Lawful) {es : List (Entry κ ν)} {u : Table D ν} (ht : t.Sound) (hu : u.Sound)
    (h : t.Lists es) (h' : u.Lists es) : u.live = t.live := by
  apply hu.shows.eq_of_keys hD ht.shows
  intro k
  apply Option.ext
  intro v
  have hBoth := (h'.get k v).trans (h.get k v).symm
  rwa [hu.shows.get, ht.shows.get, Except.ok.injEq, Except.ok.injEq] at hBoth

end Table

end OrdinalMap
