import OrdinalMap.Proofs.Table.Sweep
import OrdinalMap.Table.Erase

/-! # Entries shown to a test

A pass shows a test the entries of a table in ascending order and erases those that
fail. What it does to the table it does to the list of the entries: the pass over the
ordinals is at each of them ahead of the entries listed from there on.
-/

namespace OrdinalMap

set_option autoImplicit false

variable {κ ν σ : Type} {D : Domain κ}

namespace Domain

variable {m l : Nat → Option ν}

def entryOf? (D : Domain κ) (m : Nat → Option ν) (i : Nat) : Option (Entry κ ν) := do
  let k ← D.values[i]?
  let v ← m i
  return { ordinal := i, key := k, value := v }

/-- The entries for the `count` ordinals from `start` on. -/
def listing (D : Domain κ) (m : Nat → Option ν) (count start : Nat) : List (Entry κ ν) :=
  (List.range' start count).filterMap (D.entryOf? m)

theorem listing_succ (D : Domain κ) (m : Nat → Option ν) (count start : Nat) :
    D.listing m (count + 1) start = (D.entryOf? m start).toList ++ D.listing m count (start + 1) := by
  rw [listing, List.range'_succ, List.filterMap_cons]
  cases D.entryOf? m start <;> rfl

theorem listing_congr {count start : Nat} (h : ∀ i, start ≤ i → i < start + count → l i = m i) :
    D.listing l count start = D.listing m count start := by
  apply List.filterMap_congr
  intro i hi
  rw [List.mem_range'_1] at hi
  rw [entryOf?, entryOf?, h i hi.1 hi.2]

theorem entryOf?_eq_some {i : Nat} {e : Entry κ ν} : D.entryOf? m i = some e ↔ Walk.Finds D m i e := by
  simp only [entryOf?, Option.bind_eq_bind, Option.bind_eq_some_iff, Option.pure_def, Option.some.injEq]
  constructor
  · rintro ⟨k, hk, v, hv, rfl⟩
    exact ⟨rfl, hk, hv⟩
  · rintro ⟨rfl, hk, hv⟩
    exact ⟨e.key, hk, e.value, hv, rfl⟩

theorem entryOf?_of_none {i : Nat} (h : m i = none) : D.entryOf? m i = none := by simp [entryOf?, h]

theorem filterMap_of_finds {js : List Nat} {es : List (Entry κ ν)}
    (h : List.Forall₂ (Walk.Finds D m) (js.filter fun i => (m i).isSome) es) : js.filterMap (D.entryOf? m) = es := by
  induction js generalizing es with
  | nil =>
    cases h
    rfl
  | cons i js ih =>
    rw [List.filter_cons] at h
    split at h
    · obtain ⟨e, rest, hFound, hRest, rfl⟩ := List.forall₂_cons_left_iff.mp h
      rw [List.filterMap_cons_some (entryOf?_eq_some.mpr hFound), ih hRest]
    · rename_i hDead
      rw [Option.not_isSome_iff_eq_none] at hDead
      rw [List.filterMap_cons_none (entryOf?_of_none hDead), ih h]

theorem Lawful.mem_listing (hD : D.Lawful) {e : Entry κ ν} :
    e ∈ D.listing m D.count 0 ↔ e.ordinal = D.ordinal e.key ∧ m (D.ordinal e.key) = some e.value := by
  simp only [listing, List.mem_filterMap, List.mem_range'_1, entryOf?_eq_some]
  constructor
  · rintro ⟨i, -, rfl, hk, hv⟩
    rw [hD.ordinal_eq hk]
    exact ⟨rfl, hv⟩
  · rintro ⟨hOrdinal, hv⟩
    have hlt := hD.ordinal_lt e.key
    exact ⟨D.ordinal e.key, by omega, hOrdinal, hD.getElem_ordinal e.key, hv⟩

theorem ascending_listing (D : Domain κ) (m : Nat → Option ν) (count start : Nat) :
    (D.listing m count start).Pairwise fun e e' => e.ordinal < e'.ordinal := by
  rw [listing, List.pairwise_filterMap]
  refine List.Pairwise.imp ?_ (List.pairwise_lt_range' ..)
  intro i j hij e he e' he'
  rwa [(entryOf?_eq_some.mp he).1, (entryOf?_eq_some.mp he').1]

end Domain

namespace Table

variable {t : Table D ν} {m : Nat → Option ν}

theorem Shows.entries (hD : D.Lawful) (h : t.Shows m) : t.entries = .ok (D.listing m D.count 0) := by
  obtain ⟨es, hEntries, hFinds⟩ := entries_found hD h.sound
  rw [h.live_eq, span, Nat.sub_zero] at hFinds
  rw [hEntries, Domain.listing, Domain.filterMap_of_finds hFinds]

/-- The calls of a test that is shown entries one after the other: the state in which
it comes to each entry, and the entry. A call that faults is the last one. -/
def calls (keep : Test σ κ ν) : List (Entry κ ν) → σ → List (σ × Entry κ ν)
  | [], _ => []
  | e :: es, s =>
    (s, e) :: match keep s e.key e.value with
      | (.ok _, _, s) => calls keep es s
      | (.error _, _, _) => []

/-- The state of the test after the calls, or the fault of the last one. -/
def verdict (keep : Test σ κ ν) : List (Entry κ ν) → σ → Except Fault σ
  | [], s => .ok s
  | e :: es, s =>
    match keep s e.key e.value with
    | (.ok _, _, s) => verdict keep es s
    | (.error f, _, _) => .error f

/-- What a call leaves of the entry it is shown. -/
def remains (keep : Test σ κ ν) (c : σ × Entry κ ν) : Option (Entry κ ν) :=
  match keep c.1 c.2.key c.2.value with
  | (.ok false, _, _) => none
  | (_, v, _) => some { c.2 with value := v }

/-- What the calls leave of the entries, with those for which there was no call. -/
def sifted (keep : Test σ κ ν) (es : List (Entry κ ν)) (s : σ) : List (Entry κ ν) :=
  (calls keep es s).filterMap (remains keep) ++ es.drop (calls keep es s).length

variable {keep : Test σ κ ν} {e : Entry κ ν} {es : List (Entry κ ν)} {s s' : σ} {v : ν}

theorem sifted_kept (h : keep s e.key e.value = (.ok true, v, s')) :
    sifted keep (e :: es) s = { e with value := v } :: sifted keep es s' := by
  simp [sifted, calls, remains, h]

theorem sifted_erased (h : keep s e.key e.value = (.ok false, v, s')) :
    sifted keep (e :: es) s = sifted keep es s' := by
  simp [sifted, calls, remains, h]

theorem sifted_fault {f : Fault} (h : keep s e.key e.value = (.error f, v, s')) :
    sifted keep (e :: es) s = { e with value := v } :: es := by
  simp [sifted, calls, remains, h]

/-- The table has become what the calls make of its entries for the `count` ordinals
from `start` on, and is the same elsewhere. -/
def SiftedTo (keep : Test σ κ ν) (m : Nat → Option ν) (count start : Nat) (s : σ) (u : Table D ν) : Prop :=
  ∃ l, u.Shows l ∧ (∀ i, i < start ∨ start + count ≤ i → l i = m i) ∧
    D.listing l count start = sifted keep (D.listing m count start) s

/-- The action ends as the calls do. -/
def Sifts (keep : Test σ κ ν) (m : Nat → Option ν) (count start : Nat) (s : σ) (x : Action D ν σ)
    (t : Table D ν) : Prop :=
  Ends x t (fun s' u => verdict keep (D.listing m count start) s = .ok s' ∧ SiftedTo keep m count start s u)
    (fun f u => verdict keep (D.listing m count start) s = .error f ∧ SiftedTo keep m count start s u)

section Step

variable {l : Nat → Option ν} {count start : Nat} (hFrame : ∀ i, i ≠ start → l i = m i)
  (hSifted : sifted keep (D.listing m (count + 1) start) s =
    (D.entryOf? l start).toList ++ sifted keep (D.listing m count (start + 1)) s')

include hFrame hSifted

theorem SiftedTo.extend {u : Table D ν} (h : SiftedTo keep l count (start + 1) s' u) :
    SiftedTo keep m (count + 1) start s u := by
  obtain ⟨l', hShows, hOutside, hListing⟩ := h
  have hRest : D.listing l count (start + 1) = D.listing m count (start + 1) :=
    Domain.listing_congr fun i hi _ => hFrame i (by omega)
  have hFirst : D.entryOf? l' start = D.entryOf? l start := by
    rw [Domain.entryOf?, Domain.entryOf?, hOutside start (by omega)]
  refine ⟨l', hShows, ?_, ?_⟩
  · intro i hi
    rw [hOutside i (by omega), hFrame i (by omega)]
  · rw [D.listing_succ l', hFirst, hListing, hRest, hSifted]

/-- A pass over the ordinals after `start`, in a table that differs at `start` only, is
the rest of a pass that begins there. -/
theorem Sifts.extend {x : Action D ν σ} (h : Sifts keep l count (start + 1) s' x t)
    (hVerdict : verdict keep (D.listing m (count + 1) start) s = verdict keep (D.listing m count (start + 1)) s') :
    Sifts keep m (count + 1) start s x t := by
  have hRest : D.listing l count (start + 1) = D.listing m count (start + 1) :=
    Domain.listing_congr fun i hi _ => hFrame i (by omega)
  rw [← hRest] at hVerdict
  apply Ends.mono h
  · exact fun _ _ hu => ⟨hVerdict.trans hu.1, hu.2.extend hFrame hSifted⟩
  · exact fun _ _ hu => ⟨hVerdict.trans hu.1, hu.2.extend hFrame hSifted⟩

end Step

theorem retainSpan_sifts [Disposal ν] [Disposal.Quiet ν] (hD : D.Lawful) (h : t.Shows m) {count start : Nat}
    (hStop : start + count ≤ D.count) (s : σ) :
    Sifts keep m count start s (retainSpan keep count start s) t := by
  induction count generalizing t m start s with
  | zero => exact ⟨rfl, m, h, fun _ _ => rfl, rfl⟩
  | succ count ih =>
    have hNext : start + 1 + count ≤ D.count := by omega
    cases hv : m start with
    | none =>
      have hNone : D.entryOf? m start = none := Domain.entryOf?_of_none hv
      have hListing : D.listing m (count + 1) start = D.listing m count (start + 1) := by
        rw [D.listing_succ, hNone]
        rfl
      have hSifted : sifted keep (D.listing m (count + 1) start) s =
          (D.entryOf? m start).toList ++ sifted keep (D.listing m count (start + 1)) s := by
        rw [hListing, hNone]
        rfl
      rw [retainSpan, Sifts, ends_get_bind, h.holds_of_none hv]
      exact (ih h hNext s).extend (fun _ _ => rfl) hSifted (by rw [hListing])
    | some v =>
      obtain ⟨k, hk⟩ := hD.exists_key (i := start) (by omega)
      have hEntry : ∀ {l : Nat → Option ν} {w : ν}, l start = some w → D.entryOf? l start = some ⟨start, k, w⟩ :=
        fun hl => Domain.entryOf?_eq_some.mpr ⟨rfl, hk, hl⟩
      have hListing : D.listing m (count + 1) start = ⟨start, k, v⟩ :: D.listing m count (start + 1) := by
        rw [D.listing_succ, hEntry hv]
        rfl
      have hFrame : ∀ o i, i ≠ start → Function.update m start o i = m i :=
        fun o i hi => Function.update_of_ne hi ..
      refine retainSpan_call h hv (Domain.keyAt_eq_ok.mpr hk) ?_ ?_ ?_ ?_
      · intro w s₁ hCall u hu
        refine (ih hu hNext s₁).extend (hFrame _) ?_ (by rw [hListing, verdict, hCall])
        rw [hListing, sifted_kept hCall, hEntry (Function.update_self ..)]
        rfl
      · intro w s₁ hCall u hu
        refine (ih hu hNext s₁).extend (hFrame _) ?_ (by rw [hListing, verdict, hCall])
        rw [hListing, sifted_erased hCall, Domain.entryOf?_of_none (Function.update_self ..)]
        rfl
      · intro f w s₁ hCall u hu
        refine ⟨by rw [hListing, verdict, hCall], _, hu, fun i hi => hFrame _ i (by omega), ?_⟩
        rw [D.listing_succ, hEntry (Function.update_self ..), hListing, sifted_fault hCall,
          Domain.listing_congr fun i hi _ => hFrame _ i (by omega)]
        rfl
      · exact fun f hf => absurd hf Disposal.Quiet.not_stops

/-- The table has these entries and no others. -/
structure Lists (t : Table D ν) (es : List (Entry κ ν)) : Prop where
  entries : t.entries = .ok es
  ascending : es.Pairwise fun e e' => e.ordinal < e'.ordinal
  size : t.size = es.length
  get : ∀ k v, t.get? k = .ok (some v) ↔ ⟨D.ordinal k, k, v⟩ ∈ es

theorem Shows.lists (hD : D.Lawful) (h : t.Shows m) : t.Lists (D.listing m D.count 0) where
  entries := h.entries hD
  ascending := D.ascending_listing m D.count 0
  size := by
    obtain ⟨es, hEntries, hFinds⟩ := entries_found hD h.sound
    rw [h.entries hD, Except.ok.injEq] at hEntries
    rw [hEntries, ← hFinds.length_eq, Walk.length_span_holds hD h.sound]
  get := by
    intro k v
    simp [h.get, hD.mem_listing]

/-- A result or a fault, together with the table that is left. -/
def outcome {α : Type} (r : Except Fault α) (u : Table D ν) : EStateM.Result Fault (Table D ν) α :=
  match r with
  | .ok a => .ok a u
  | .error f => .error f u

theorem retain_lists [Disposal ν] [Disposal.Quiet ν] (hD : D.Lawful) (h : t.Shows m) (keep : Test σ κ ν) (s : σ) :
    ∃ u, retain keep s t = outcome (verdict keep (D.listing m D.count 0) s) u ∧ u.Sound ∧
      u.Lists (sifted keep (D.listing m D.count 0) s) := by
  have hLists : ∀ u : Table D ν, SiftedTo keep m D.count 0 s u →
      u.Sound ∧ u.Lists (sifted keep (D.listing m D.count 0) s) := by
    rintro u ⟨l, hShows, -, hListing⟩
    rw [← hListing]
    exact ⟨hShows.sound, hShows.lists hD⟩
  obtain ⟨s', u, hRun, hVerdict, hu⟩ | ⟨f, u, hRun, hVerdict, hu⟩ :=
    (retainSpan_sifts hD h (Nat.zero_add D.count).le s).ran
  · refine ⟨u, ?_, hLists u hu⟩
    rw [retain, hRun, hVerdict]
    rfl
  · refine ⟨u, ?_, hLists u hu⟩
    rw [retain, hRun, hVerdict]
    rfl

/-! ## The calls counted -/

theorem map_calls (h : verdict keep es s = .ok s') : (calls keep es s).map Prod.snd = es := by
  induction es generalizing s with
  | nil => rfl
  | cons e es ih =>
    rw [verdict] at h
    rw [calls]
    rcases hCall : keep s e.key e.value with ⟨answer, w, s₁⟩
    rw [hCall] at h
    cases answer with
    | ok kept => rw [List.map_cons, ih h]
    | error f => cases h

/-- The test that also writes down what it is shown. -/
def logged (keep : Test σ κ ν) : Test (σ × List (κ × ν)) κ ν :=
  fun s k v => ((keep s.1 k v).1, (keep s.1 k v).2.1, ((keep s.1 k v).2.2, s.2 ++ [(k, v)]))

theorem verdict_logged (h : verdict keep es s = .ok s') (log : List (κ × ν)) :
    verdict (logged keep) es (s, log) = .ok (s', log ++ es.map fun e => (e.key, e.value)) := by
  induction es generalizing s log with
  | nil =>
    cases h
    rw [List.map_nil, List.append_nil]
    rfl
  | cons e es ih =>
    rw [verdict] at h
    rw [verdict, logged]
    rcases hCall : keep s e.key e.value with ⟨answer, w, s₁⟩
    rw [hCall] at h
    cases answer with
    | ok kept =>
      have hRest := ih h (log ++ [(e.key, e.value)])
      rwa [List.append_assoc, List.singleton_append] at hRest
    | error f => cases h

theorem sifted_eq_filterMap (h : verdict keep es s = .ok s') :
    sifted keep es s = (calls keep es s).filterMap (remains keep) := by
  rw [sifted, ← List.length_map (f := Prod.snd), map_calls h, List.drop_length, List.append_nil]

theorem length_sifted (keep : Test σ κ ν) (es : List (Entry κ ν)) (s : σ) :
    (calls keep es s).countP (fun c => (remains keep c).isNone) + (sifted keep es s).length = es.length := by
  induction es generalizing s with
  | nil => rfl
  | cons e es ih =>
    rcases hCall : keep s e.key e.value with ⟨answer, w, s₁⟩
    rw [calls, List.countP_cons, hCall]
    cases answer with
    | error f => simp [sifted_fault hCall, remains, hCall]
    | ok kept =>
      cases kept with
      | true => simp [sifted_kept hCall, remains, hCall, ← ih s₁, Nat.add_assoc]
      | false => simp [sifted_erased hCall, remains, hCall, ← ih s₁, Nat.add_right_comm]

/-- The test that keeps what another one is to erase, and leaves the values alone. -/
def negated (test : σ → κ → ν → Except Fault Bool × σ) : Test σ κ ν :=
  fun s k v => ((test s k v).1.map (!·), v, (test s k v).2)

theorem remains_negated (test : σ → κ → ν → Except Fault Bool × σ) (c : σ × Entry κ ν) :
    remains (negated test) c = if (test c.1 c.2.key c.2.value).1 = .ok true then none else some c.2 := by
  rw [remains, negated]
  cases (test c.1 c.2.key c.2.value).1 with
  | error f => rfl
  | ok passed => cases passed <;> rfl

/-- The number of calls that answer yes. -/
def passing (test : σ → κ → ν → Except Fault Bool × σ) (es : List (Entry κ ν)) (s : σ) : Nat :=
  (calls (negated test) es s).countP fun c => (test c.1 c.2.key c.2.value).1 = .ok true

theorem passing_add (test : σ → κ → ν → Except Fault Bool × σ) (es : List (Entry κ ν)) (s : σ) :
    passing test es s + (sifted (negated test) es s).length = es.length := by
  rw [← length_sifted (negated test) es s, passing]
  congr 1
  apply List.countP_congr
  intro c _
  rw [remains_negated]
  split <;> simp_all

theorem sifted_negated {test : σ → κ → ν → Except Fault Bool × σ} (h : verdict (negated test) es s = .ok s') :
    sifted (negated test) es s =
      ((calls (negated test) es s).filter fun c => (test c.1 c.2.key c.2.value).1 ≠ .ok true).map Prod.snd := by
  rw [sifted_eq_filterMap h, ← List.filterMap_eq_map, List.filterMap_filter]
  apply List.filterMap_congr
  intro c _
  rw [remains_negated]
  split <;> simp_all

/-- A test that only looks at keys never stops, and the pass picks entries by their keys. -/
theorem sifted_of_answers {test : σ → κ → ν → Except Fault Bool × σ} {p : κ → Bool}
    (hTest : ∀ s k v, (test s k v).1 = .ok (p k)) (es : List (Entry κ ν)) (s : σ) :
    (∃ s', verdict (negated test) es s = .ok s') ∧ sifted (negated test) es s = es.filter fun e => !p e.key := by
  induction es generalizing s with
  | nil => exact ⟨⟨s, rfl⟩, rfl⟩
  | cons e es ih =>
    obtain ⟨⟨s', hVerdict⟩, hSifted⟩ := ih (test s e.key e.value).2
    have hCall : negated test s e.key e.value = (.ok (!p e.key), e.value, (test s e.key e.value).2) := by
      rw [negated, hTest]
      rfl
    constructor
    · refine ⟨s', ?_⟩
      rw [verdict, hCall]
      exact hVerdict
    · cases hp : p e.key with
      | true =>
        rw [hp] at hCall
        rw [sifted_erased hCall, hSifted, List.filter_cons_of_neg (by simp [hp])]
      | false =>
        rw [hp] at hCall
        rw [sifted_kept hCall, hSifted, List.filter_cons_of_pos (by simp [hp])]

/-- The number is told from the sizes before and after. -/
theorem eraseIf_of_retain [Disposal ν] {test : σ → κ → ν → Except Fault Bool × σ} {u : Table D ν}
    {r : Except Fault σ} (hSize : u.size ≤ t.size) (h : retain (negated test) s t = outcome r u) :
    eraseIf test s t = outcome (r.map fun s' => (t.size - u.size, s')) u := by
  have hRetain : Ends (retain (negated test) s) t (fun s' w => r = .ok s' ∧ w = u)
      (fun f w => r = .error f ∧ w = u) := by
    rw [Ends, h]
    cases r <;> exact ⟨rfl, rfl⟩
  have hEnds : Ends (eraseIf test s) t (fun a w => ∃ s', r = .ok s' ∧ a = (t.size - u.size, s') ∧ w = u)
      (fun f w => r = .error f ∧ w = u) := by
    rw [eraseIf, ends_get_bind]
    apply hRetain.bind
    · rintro s' _ ⟨hr, rfl⟩
      rw [ends_get_bind, if_neg (Nat.not_lt.mpr hSize)]
      exact ⟨s', hr, rfl, rfl⟩
    · exact fun _ _ hf => hf
  obtain ⟨_, _, hRun, s', rfl, rfl, rfl⟩ | ⟨f, _, hRun, rfl, rfl⟩ := hEnds.ran
  · exact hRun
  · exact hRun

end Table

end OrdinalMap
