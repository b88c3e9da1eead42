import OrdinalMap.Proofs.Table.Drain
import OrdinalMap.Proofs.Table.Model
import OrdinalMap.Proofs.Table.Schedule

/-! # Tables and lists of pairs

The table of a list of pairs has for each key the first value listed with it. A
list that has each entry of a table once, in any order, gives that table back, and
draining the table gives its list in ascending order.
-/

namespace OrdinalMap

set_option autoImplicit false

variable {κ ν : Type} {D : Domain κ}

section Pairs

variable [DecidableEq κ] {pairs : List (κ × ν)}

theorem lookup_cons (p : κ × ν) (pairs : List (κ × ν)) (k : κ) :
    (p :: pairs).lookup k = if k = p.1 then some p.2 else pairs.lookup k := by
  rw [List.lookup_cons]
  by_cases hk : k = p.1
  · simp [hk]
  · simp [hk, beq_false_of_ne hk]

theorem lookup_filter_ne (k k' : κ) (pairs : List (κ × ν)) :
    (pairs.filter (·.1 ≠ k')).lookup k = if k = k' then none else pairs.lookup k := by
  induction pairs with
  | nil => simp
  | cons p pairs ih =>
    by_cases hp : p.1 = k'
    · rw [List.filter_cons_of_neg (by simpa using hp), ih, lookup_cons, ← hp]
      split <;> rfl
    · rw [List.filter_cons_of_pos (by simpa using hp), lookup_cons, lookup_cons, ih]
      by_cases hk : k = p.1
      · rw [if_pos hk, if_pos hk, if_neg (hk ▸ hp)]
      · rw [if_neg hk, if_neg hk]

/-- The pairs with no other of their key before them. -/
def firstOccurrences (pairs : List (κ × ν)) : List (κ × ν) := pairs.eraseDupsBy fun p q => p.1 == q.1

theorem firstOccurrences_cons (p : κ × ν) (pairs : List (κ × ν)) :
    firstOccurrences (p :: pairs) = p :: firstOccurrences (pairs.filter (·.1 ≠ p.1)) := by
  simp [firstOccurrences, List.eraseDupsBy_cons]

/-- Induction along the first occurrences: after a pair, those of its key are left out. -/
@[elab_as_elim]
theorem firstOccurrences_induction {motive : List (κ × ν) → Prop} (nil : motive [])
    (cons : ∀ p pairs, motive (pairs.filter (·.1 ≠ p.1)) → motive (p :: pairs)) (pairs : List (κ × ν)) :
    motive pairs := by
  induction hLength : pairs.length using Nat.strong_induction_on generalizing pairs with
  | _ n ih =>
    cases pairs with
    | nil => exact nil
    | cons p pairs =>
      have hShorter : (pairs.filter (·.1 ≠ p.1)).length < n := by
        rw [← hLength]
        exact Nat.lt_succ_of_le (List.length_filter_le _ pairs)
      exact cons p pairs (ih _ hShorter _ rfl)

theorem mem_firstOccurrences (pairs : List (κ × ν)) (p : κ × ν) :
    p ∈ firstOccurrences pairs ↔ pairs.lookup p.1 = some p.2 := by
  induction pairs using firstOccurrences_induction with
  | nil => simp [firstOccurrences]
  | cons q pairs ih =>
    rw [firstOccurrences_cons, List.mem_cons, ih, lookup_filter_ne, lookup_cons]
    by_cases hp : p.1 = q.1
    · rw [if_pos hp, if_pos hp, Option.some.injEq, or_iff_left nofun, Prod.ext_iff]
      exact ⟨fun h => h.2.symm, fun h => ⟨hp, h.symm⟩⟩
    · rw [if_neg hp, if_neg hp]
      exact or_iff_right fun hEq => hp (congrArg Prod.fst hEq)

theorem nodup_firstOccurrences (pairs : List (κ × ν)) : ((firstOccurrences pairs).map Prod.fst).Nodup := by
  induction pairs using firstOccurrences_induction with
  | nil => simp [firstOccurrences]
  | cons q pairs ih =>
    rw [firstOccurrences_cons, List.map_cons, List.nodup_cons]
    constructor
    · intro hMem
      obtain ⟨p, hp, hKey⟩ := List.mem_map.mp hMem
      rw [mem_firstOccurrences, lookup_filter_ne, if_pos hKey] at hp
      cases hp
    · exact ih

theorem mem_iff_lookup (h : (pairs.map Prod.fst).Nodup) (p : κ × ν) :
    p ∈ pairs ↔ pairs.lookup p.1 = some p.2 := by
  induction pairs with
  | nil => simp
  | cons q pairs ih =>
    obtain ⟨hNot, hRest⟩ := List.nodup_cons.mp h
    rw [List.mem_cons, lookup_cons, ih hRest]
    by_cases hp : p.1 = q.1
    · have hNone : pairs.lookup p.1 ≠ some p.2 := by
        rw [Ne, ← ih hRest]
        exact fun hMem => hNot (hp ▸ List.mem_map_of_mem hMem)
      rw [or_iff_left hNone, if_pos hp, Option.some.injEq, Prod.ext_iff]
      exact ⟨fun h => h.2.symm, fun h => ⟨hp, h.symm⟩⟩
    · rw [if_neg hp]
      exact or_iff_right fun hEq => hp (congrArg Prod.fst hEq)

theorem isSome_lookup (pairs : List (κ × ν)) (k : κ) :
    (pairs.lookup k).isSome = true ↔ k ∈ pairs.map Prod.fst := by
  rw [List.lookup_isSome_iff, List.mem_map]
  simp only [beq_iff_eq, eq_comm (a := k)]

theorem lookup_perm {pairs' : List (κ × ν)} (h : pairs.Perm pairs') (hNodup : (pairs.map Prod.fst).Nodup) (k : κ) :
    pairs'.lookup k = pairs.lookup k := by
  have hNodup' := (h.map Prod.fst).nodup_iff.mp hNodup
  apply Option.ext
  intro v
  rw [← mem_iff_lookup hNodup (k, v), ← mem_iff_lookup hNodup' (k, v), h.mem_iff]

theorem Model.add_apply (m : κ → Option ν) (p : κ × ν) (k : κ) :
    add m p k = (m k).or (if k = p.1 then some p.2 else none) := by
  rw [add_eq_update]
  by_cases hk : k = p.1
  · rw [if_pos hk, hk, Function.update_self]
    cases m p.1 <;> rfl
  · rw [if_neg hk, Option.or_none, Function.update_of_ne hk]

theorem Model.foldl_add (pairs : List (κ × ν)) (m : κ → Option ν) (k : κ) :
    pairs.foldl add m k = (m k).or (pairs.lookup k) := by
  induction pairs generalizing m with
  | nil => simp
  | cons p pairs ih =>
    rw [List.foldl_cons, ih, lookup_cons, add_apply, Option.or_assoc]
    split <;> rfl

end Pairs

def Domain.Ascending (D : Domain κ) (pairs : List (κ × ν)) : Prop :=
  pairs.Pairwise fun p q => D.ordinal p.1 < D.ordinal q.1

theorem Domain.Ascending.nodup {pairs : List (κ × ν)} (h : D.Ascending pairs) : (pairs.map Prod.fst).Nodup :=
  List.pairwise_map.mpr (h.imp fun hlt hEq => hlt.ne (congrArg D.ordinal hEq))

theorem Domain.Ascending.eq_of_mem {pairs pairs' : List (κ × ν)} (h : D.Ascending pairs) (h' : D.Ascending pairs')
    (hMem : ∀ p, p ∈ pairs ↔ p ∈ pairs') : pairs = pairs' := by
  have hPerm := (List.perm_ext_iff_of_nodup h.nodup.of_map h'.nodup.of_map).mpr hMem
  exact hPerm.eq_of_pairwise (fun _ _ _ _ hlt hgt => absurd hgt hlt.asymm) h h'

/-- The pairs sorted by the ordinals of their keys. -/
def Domain.sort (D : Domain κ) (pairs : List (κ × ν)) : List (κ × ν) :=
  pairs.mergeSort fun p q => decide (D.ordinal p.1 ≤ D.ordinal q.1)

theorem Domain.Lawful.ascending_sort (hD : D.Lawful) {pairs : List (κ × ν)} (h : (pairs.map Prod.fst).Nodup) :
    D.Ascending (D.sort pairs) := by
  have hSorted : (D.sort pairs).Pairwise fun p q => decide (D.ordinal p.1 ≤ D.ordinal q.1) = true := by
    apply List.pairwise_mergeSort
    · intro p q r hpq hqr
      exact decide_eq_true ((of_decide_eq_true hpq).trans (of_decide_eq_true hqr))
    · intro p q
      simpa using Nat.le_total (D.ordinal p.1) (D.ordinal q.1)
  have hNodup : ((D.sort pairs).map Prod.fst).Nodup :=
    ((List.mergeSort_perm pairs _).map Prod.fst).nodup_iff.mpr h
  refine hSorted.imp₂ ?_ (List.pairwise_map.mp hNodup)
  intro p q hle hne
  exact lt_of_le_of_ne (of_decide_eq_true hle) fun hEq => hne (hD.ordinal_injective hEq)

namespace Table

variable {t : Table D ν} {pairs : List (κ × ν)}

/-- The pairs are the entries of the table, each of them once. -/
structure Listed (t : Table D ν) (pairs : List (κ × ν)) : Prop where
  nodup : (pairs.map Prod.fst).Nodup
  mem_iff : ∀ p, p ∈ pairs ↔ t.live (D.ordinal p.1) = some p.2

theorem Listed.of_perm (hD : D.Lawful) (h : t.Sound)
    (hPerm : (pairs.map fun p => D.ordinal p.1).Perm (span (fun i => (t.live i).isSome) 0 D.count))
    (hFound : ∀ p ∈ pairs, t.live (D.ordinal p.1) = some p.2) : t.Listed pairs where
  nodup := by
    have hNodup := hPerm.nodup_iff.mpr (nodup_span _ 0 D.count)
    apply List.Nodup.of_map D.ordinal
    rwa [List.map_map]
  mem_iff p := by
    constructor
    · exact hFound p
    · intro hp
      have hMem := (Walk.mem_span_holds hD h).mpr (h.shows.holds_of_some hp)
      obtain ⟨q, hq, hOrdinal⟩ := List.mem_map.mp (hPerm.mem_iff.mpr hMem)
      have hKey := hD.ordinal_injective hOrdinal
      have hValue := hFound q hq
      rw [hKey, hp, Option.some.injEq] at hValue
      rwa [show p = q from Prod.ext hKey.symm hValue]

theorem listed_firstOccurrences [DecidableEq κ] (hD : D.Lawful) {u : Table D ν}
    (hu : u.Shows (D.spread fun k => pairs.lookup k)) : u.Listed (firstOccurrences pairs) where
  nodup := nodup_firstOccurrences pairs
  mem_iff p := by rw [mem_firstOccurrences, hu.live_eq, hD.spread_ordinal]

variable [Disposal ν]

/-- The table of these pairs has the size of `t` and answers for each key as `t` does. -/
def RebuiltBy (t : Table D ν) (pairs : List (κ × ν)) : Prop :=
  ∃ u : Table D ν, ofList pairs = .ok u ∧ u.size = t.size ∧ ∀ k, u.get? k = t.get? k

/-- Pairs of different keys that have no entry all make theirs, and no value is given up. -/
theorem insertMany_fresh (hD : D.Lawful) {m : Nat → Option ν} (h : t.Shows m) (hNodup : (pairs.map Prod.fst).Nodup)
    (hVacant : ∀ p ∈ pairs, m (D.ordinal p.1) = none) :
    Ends (insertMany pairs) t (fun _ u => u.Shows (pairs.foldl D.enter m)) (fun _ _ => False) := by
  induction pairs generalizing t m with
  | nil => exact h
  | cons p pairs ih =>
    obtain ⟨hNew, hRest⟩ := List.nodup_cons.mp hNodup
    have hStillVacant : ∀ q ∈ pairs, D.enter m p (D.ordinal q.1) = none := by
      intro q hq
      have hne : q.1 ≠ p.1 := ne_of_mem_of_not_mem (List.mem_map_of_mem hq) hNew
      rw [Domain.enter, Function.update_of_ne (hD.ordinal_injective.ne hne)]
      exact hVacant q (List.mem_cons_of_mem p hq)
    apply (constructNew_ends h (D.ordinal p.1) p.2).discard.bind
    · rintro _ u ⟨_, _, hu⟩
      exact ih hu hRest hStillVacant
    · rintro f u ⟨hf, -⟩
      rw [hVacant p List.mem_cons_self] at hf
      obtain hMisfit | ⟨_, ⟨⟩, -⟩ := hf
      exact hD.not_misfit p.1 f hMisfit

variable [DecidableEq κ]

theorem ofList_of_insertMany (hD : D.Lawful) {u : Table D ν} (h : insertMany pairs empty = .ok () u) :
    ofList pairs = .ok u ∧ u.Shows (D.spread fun k => pairs.lookup k) := by
  have hModel : pairs.foldl Model.add (fun _ => none) = fun k => pairs.lookup k :=
    funext fun k => Model.foldl_add pairs (fun _ => none) k
  have hShows := insertMany_ends (shows_empty.spread hD) pairs
  rw [Ends, h, ← hD.spread_foldl, hModel] at hShows
  refine ⟨?_, hShows⟩
  rw [ofList, build, h]

theorem ofList_of_nodup (hD : D.Lawful) (h : (pairs.map Prod.fst).Nodup) :
    ∃ u : Table D ν, ofList pairs = .ok u ∧ u.Shows (D.spread fun k => pairs.lookup k) := by
  obtain ⟨_, u, hRun, -⟩ | ⟨_, _, _, hFalse⟩ := (insertMany_fresh hD shows_empty h fun _ _ => rfl).ran
  · exact ⟨u, ofList_of_insertMany hD hRun⟩
  · cases hFalse

theorem Listed.rebuilt (hD : D.Lawful) (h : t.Sound) (hPairs : t.Listed pairs) : t.RebuiltBy pairs := by
  have hLookup : (fun k => pairs.lookup k) = fun k => t.live (D.ordinal k) := by
    funext k
    apply Option.ext
    intro v
    rw [← mem_iff_lookup hPairs.nodup (k, v), hPairs.mem_iff]
  obtain ⟨u, hOf, hu⟩ := ofList_of_nodup hD hPairs.nodup
  rw [hLookup] at hu
  have ht := h.shows.spread hD
  refine ⟨u, hOf, ?_, ?_⟩
  · rw [hu.size_eq, ht.size_eq]
  · intro k
    rw [hu.get, ht.get]

section Quiet

variable [Disposal.Quiet ν]

theorem insert_shows (hD : D.Lawful) {m : κ → Option ν} (h : t.Shows (D.spread m)) (k : κ) (v : ν) :
    ∃ r u, insert k v t = .ok r u ∧ u.Shows (D.spread fun k' => (m k').or ([(k, v)].lookup k')) := by
  have hModel : Model.add m (k, v) = fun k' => (m k').or ([(k, v)].lookup k') :=
    funext (Model.foldl_add [(k, v)] m)
  obtain ⟨r, u, hRun, -, hu⟩ | ⟨f, _, _, hFailed, -⟩ := (insert_ends h k v).ran
  · rw [← hD.spread_add, hModel] at hu
    exact ⟨r, u, hRun, hu⟩
  · exact absurd hFailed (hD.not_misfit_or_stops k _ f)

/-- Of the pairs whose key has no entry, the first one of each key makes its entry. -/
theorem insertMany_shows (hD : D.Lawful) {m : κ → Option ν} (h : t.Shows (D.spread m)) (pairs : List (κ × ν)) :
    ∃ u, insertMany pairs t = .ok () u ∧ u.Shows (D.spread fun k => (m k).or (pairs.lookup k)) := by
  have hModel : pairs.foldl Model.add m = fun k => (m k).or (pairs.lookup k) := funext (Model.foldl_add pairs m)
  obtain ⟨_, u, hRun, hu⟩ | ⟨f, _, _, ⟨p, _, hMisfit⟩ | hStop, _⟩ := (insertMany_ends h pairs).ran
  · rw [← hD.spread_foldl, hModel] at hu
    exact ⟨u, hRun, hu⟩
  · exact absurd hMisfit (hD.not_misfit p.1 f)
  · exact absurd hStop Disposal.Quiet.not_stops

theorem ofList_shows (hD : D.Lawful) (pairs : List (κ × ν)) :
    ∃ u : Table D ν, ofList pairs = .ok u ∧ u.Shows (D.spread fun k => pairs.lookup k) := by
  obtain ⟨u, hRun, -⟩ := insertMany_shows hD (shows_empty.spread hD) pairs
  exact ⟨u, ofList_of_insertMany hD hRun⟩

theorem Shows.rebuilt (hD : D.Lawful) (h : t.Shows (D.spread fun k => pairs.lookup k)) : t.RebuiltBy pairs := by
  obtain ⟨u, hOf, hu⟩ := ofList_shows hD pairs
  refine ⟨u, hOf, ?_, ?_⟩
  · rw [hu.size_eq, h.size_eq]
  · intro k
    rw [hu.get, h.get]

end Quiet

end Table

/-- A schedule long enough to exhaust a walk yields every entry, and each of them once. -/
theorem Walk.run_listed (hD : D.Lawful) {t : Table D ν} (h : t.Sound) {a : Access} {w : Walk a} {x : Nat}
    (hw : w.Spans D (fun i => (t.live i).isSome) (span (fun i => (t.live i).isSome) 0 D.count) x)
    {es : List End} (hSize : t.size ≤ es.length) :
    (∀ r ∈ ((ends t).run es w).1, ∃ o, r = .ok o) ∧
      t.Listed ((yielded ((ends t).run es w).1).map fun e => (e.key, e.value)) := by
  obtain ⟨left, hCovers⟩ := run_covers hD h.shows hw es
  have hLeft : left = [] := by
    rw [← List.length_eq_zero_iff, hCovers.length, length_span_holds hD h]
    exact Nat.sub_eq_zero_of_le hSize
  have hOrdinal : ∀ e ∈ yielded ((ends t).run es w).1, D.ordinal e.key = e.ordinal :=
    fun e he => hD.ordinal_eq (hCovers.found e he).2.1
  refine ⟨hCovers.noFault, .of_perm hD h ?_ ?_⟩
  · have hPerm := hCovers.perm (TwoEnded.length_run es w)
    rw [hLeft, List.append_nil] at hPerm
    rw [List.map_map]
    exact (List.map_congr_left hOrdinal ▸ hPerm).symm
  · intro p hp
    obtain ⟨e, he, rfl⟩ := List.mem_map.mp hp
    rw [hOrdinal e he]
    exact (hCovers.found e he).2.2

namespace Drain

variable {m : Nat → Option ν} {js : List Nat} {d : Drain D ν}

theorem collect_front (hD : D.Lawful) (hd : d.Spans m js) {limit : Nat} (hLimit : js.length < limit) :
    Ends (ends.collect .front limit) d
      (fun pairs _ => pairs.map (fun p => D.ordinal p.1) = js ∧ ∀ p ∈ pairs, m (D.ordinal p.1) = some p.2)
      (fun _ _ => False) := by
  induction limit generalizing js d with
  | zero => omega
  | succ limit ih =>
    apply (pull_lawful hD hd .front).bind
    · rintro r u (⟨rfl, rfl, rfl⟩ | ⟨i, rest, p, hTakes, rfl, hKey, hValue, hu⟩)
      · exact ⟨rfl, nofun⟩
      · obtain rfl : js = i :: rest := hTakes
        have hOrdinal := hD.ordinal_eq hKey
        apply (ih hu (by simpa using hLimit)).bind
        · rintro pairs _ ⟨hOrdinals, hFound⟩
          constructor
          · exact List.cons_eq_cons.mpr ⟨hOrdinal, hOrdinals⟩
          · intro q hq
            obtain rfl | hq := List.mem_cons.mp hq
            · rwa [hOrdinal]
            · exact hFound q hq
        · exact fun _ _ => False.elim
    · exact fun _ _ => False.elim

end Drain

end OrdinalMap
