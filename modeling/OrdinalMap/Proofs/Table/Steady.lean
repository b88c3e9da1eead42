import OrdinalMap.Proofs.Regular
import OrdinalMap.Proofs.Table.Keyed
import OrdinalMap.Table.Copy

/-! # Actions that keep a table sound

A steady action leaves every sound table sound, whether it ends with a result
or stops part way, and commits no breach. All actions on tables are steady, on
every domain, as long as the functions that the caller passes in are regular.
-/

namespace OrdinalMap

set_option autoImplicit false

theorem Domain.Misfit.regular {κ : Type} {D : Domain κ} {i : Nat} {f : Fault} (h : D.Misfit i f) :
    f.Regular := h.ne_breach

theorem Bound.settles_start {κ : Type} {D : Domain κ} (b : Bound κ) : Settles (b.start D) fun _ => True := by
  cases b with
  | included k => exact trivial
  | excluded k =>
    rw [Bound.start, Bound.after]
    split
    · exact trivial
    · exact nofun
  | unbounded => exact trivial

theorem Bound.settles_stop {κ : Type} {D : Domain κ} (b : Bound κ) : Settles (b.stop D) fun _ => True := by
  cases b with
  | included k =>
    rw [Bound.stop, Bound.after]
    split
    · exact trivial
    · exact nofun
  | excluded k => exact trivial
  | unbounded => exact trivial

namespace Table

variable {κ ν α β : Type} {D : Domain κ} {t : Table D ν} {m : Nat → Option ν}

def Steady (x : Action D ν α) : Prop :=
  ∀ t : Table D ν, t.Sound → Ends x t (fun _ u => u.Sound) (fun f u => f.Regular ∧ u.Sound)

theorem steady_pure (a : α) : Steady (pure a : Action D ν α) := fun _ h => h

theorem steady_throw {f : Fault} (hf : f.Regular) : Steady (throw f : Action D ν α) := fun _ h => ⟨hf, h⟩

theorem Steady.bind {x : Action D ν α} {k : α → Action D ν β} (h : Steady x) (hk : ∀ a, Steady (k a)) :
    Steady (x >>= k) :=
  fun t ht => (h t ht).bind (fun a u hu => hk a u hu) fun _ _ hf => hf

theorem Steady.discard {x : Action D ν α} (h : Steady x) : Steady (discard x) :=
  fun t ht => ends_discard.mpr (h t ht)

theorem steady_inspect {f : Table D ν → Except Fault α}
    (h : ∀ t, t.Sound → Settles (f t) fun _ => True) : Steady (inspect f) := by
  intro t ht
  refine ends_inspect (fun _ _ => ht) fun e he => ⟨?_, ht⟩
  have hSettles := h t ht
  rw [he] at hSettles
  exact hSettles

/-! ## Operations by key -/

theorem steady_emplace {σ : Type} (k : κ) (make : σ → Except Fault ν × σ) (s : σ)
    (hMake : ∀ s, Settles (make s).1 fun _ => True) : Steady (emplace k make s : Action D ν _) := by
  intro t ht
  apply (emplace_ends ht.shows k make s).mono
  · intro r u hu
    cases hi : t.live (D.ordinal k) with
    | none =>
      rw [hi] at hu
      obtain ⟨_, _, _, hShows⟩ := hu
      exact hShows.sound
    | some v =>
      rw [hi] at hu
      exact hu.2.sound
  · rintro f u (⟨hf, hu⟩ | ⟨-, hf, rfl⟩)
    · exact ⟨hf.regular, hu⟩
    · have hSettles := hMake s
      rw [hf] at hSettles
      exact ⟨hSettles, ht⟩

theorem steady_modifyOrInsert (k : κ) (initial : ν) (f : ν → ν) :
    Steady (modifyOrInsert k initial f : Action D ν _) := by
  intro t ht
  apply (modifyOrInsert_ends ht.shows k initial f).mono
  · exact fun _ u hu => hu.2.sound
  · exact fun e u he => ⟨he.1.regular, he.2.sound⟩

theorem steady_modify? (k : κ) (f : ν → ν) : Steady (modify? k f : Action D ν _) := by
  intro t ht
  refine (modify?_ends ht.shows k f).mono ?_ fun e u => False.elim
  exact fun _ u hu => hu.2.sound

theorem steady_modifyRequired (P : Policy) (site : String) (k : κ) (f : ν → ν) :
    Steady (modifyRequired P site k f : Action D ν _) := by
  intro t ht
  apply (modifyRequired_ends ht.shows P site k f).mono
  · rintro _ u ⟨_, _, _, hu⟩
    exact hu.sound
  · rintro e u ⟨-, rfl, rfl⟩
    exact ⟨nofun, ht⟩

theorem steady_takeEntry (k : κ) : Steady (Table.takeEntry? k : Action D ν _) := by
  intro t ht
  refine (takeEntry_ends ht.shows k).mono (fun _ u hu => hu.2.2.sound) ?_
  rintro f u ⟨hf, rfl⟩
  exact ⟨hf.regular, ht⟩

theorem steady_take? (k : κ) : Steady (take? k : Action D ν _) :=
  (steady_takeEntry k).bind fun _ => steady_pure _

section Disposal

variable [Disposal ν]

theorem regular_of_misfit_or_stops {i : Nat} {o : Option ν} {f : Fault}
    (h : D.Misfit i f ∨ Disposal.StopsOn o f) : f.Regular :=
  h.elim Domain.Misfit.regular fun h => h.stops.regular

theorem steady_giveUp (v : ν) : Steady (giveUp v : Action D ν Unit) :=
  steady_inspect fun _ _ => Disposal.settles_dispose v

theorem steady_insert (k : κ) (v : ν) : Steady (insert k v : Action D ν _) := by
  intro t ht
  apply (insert_ends ht.shows k v).mono
  · exact fun _ u hu => hu.2.sound
  · exact fun f u hf => ⟨regular_of_misfit_or_stops hf.1, hf.2⟩

theorem steady_assign (k : κ) (v : ν) : Steady (assign k v : Action D ν _) := by
  intro t ht
  apply (assign_ends ht.shows k v).mono
  · exact fun _ u hu => hu.2.sound
  · exact fun f u hf => ⟨regular_of_misfit_or_stops hf.1, hf.2⟩

theorem steady_insertMany (pairs : List (κ × ν)) : Steady (insertMany pairs : Action D ν _) := by
  intro t ht
  apply (insertMany_ends ht.shows pairs).mono
  · exact fun _ u hu => hu.sound
  · rintro f u ⟨⟨p, _, hf⟩ | hf, hu⟩
    · exact ⟨hf.regular, hu⟩
    · exact ⟨hf.regular, hu⟩

theorem steady_erase (k : κ) : Steady (erase k : Action D ν _) := by
  intro t ht
  apply (erase_ends ht.shows k).mono
  · exact fun _ u hu => hu.2.sound
  · exact fun f u hf => ⟨hf.1.stops.regular, hf.2.sound⟩

theorem steady_eraseAt (k : κ) : Steady (eraseAt k : Action D ν _) := by
  intro t ht
  apply (eraseAt_ends ht.shows k).mono
  · exact fun _ u hu => hu.2.2.sound
  · rintro f u (⟨-, rfl, rfl⟩ | ⟨hf, hu⟩)
    · exact ⟨nofun, ht⟩
    · exact ⟨hf.stops.regular, hu.sound⟩

theorem steady_clear : Steady (clear : Action D ν _) := by
  intro t ht
  apply (clear_ends ht.shows).mono
  · exact fun _ u hu => hu.sound
  · rintro f u ⟨⟨_, hf⟩, hu⟩
    exact ⟨hf.stops.regular, hu⟩

/-- A table that has been given up is sound, and so is one that could not be. -/
theorem Sound.remnant (h : t.Sound) : t.remnant.Sound ∧ ∀ f ∈ t.lastFaults, f.Regular := by
  rw [Table.remnant, Table.lastFaults]
  obtain ⟨_, u, hRun, hu⟩ | ⟨f, u, hRun, hf, hu⟩ := (steady_clear t h).ran
  · rw [dispose, hRun]
    exact ⟨hu, nofun⟩
  · rw [dispose, hRun]
    exact ⟨hu, fun _ hg => List.mem_singleton.mp hg ▸ hf⟩

end Disposal

/-! ## Passes over many ordinals -/

theorem steady_assignMany [Disposal ν] {σ : Type} {copy : Copier σ ν} (hCopy : ∀ s v, Settles (copy s v).1 fun _ => True)
    (v : ν) (keys : List κ) (s : σ) : Steady (assignMany copy v keys s : Action D ν _) := by
  induction keys generalizing s with
  | nil => exact steady_pure s
  | cons k keys ih =>
    refine (steady_inspect fun _ _ => hCopy s v).bind fun w => ?_
    exact (steady_assign k w).discard.bind fun _ => ih _

theorem steady_assignCopies [Disposal ν] {σ : Type} {copy : Copier σ ν}
    (hCopy : ∀ s v, Settles (copy s v).1 fun _ => True) (s : σ) (keys : List κ) (v : ν) :
    Steady (assignCopies copy s keys v : Action D ν _) :=
  (steady_assignMany hCopy v keys s).discard.bind fun _ => steady_giveUp v

theorem steady_eraseSpan [Disposal ν] (count start : Nat) : Steady (eraseSpan count start : Action D ν _) := by
  induction count generalizing start with
  | zero => exact steady_pure 0
  | succ count ih =>
    intro t ht
    rw [eraseSpan, ends_get_bind]
    cases hHolds : t.holds start with
    | false => exact ih (start + 1) t ht
    | true =>
      obtain ⟨_, v, _, hv⟩ := ht.exists_live hHolds
      apply (release_ends ht.shows hv).bind
      · intro _ u hu
        exact ((ih (start + 1)).bind fun n => steady_pure (n + 1)) u hu.sound
      · exact fun f u hf => ⟨hf.1.stops.regular, hf.2.sound⟩

theorem steady_eraseRange [Disposal ν] (lower upper : Bound κ) :
    Steady (eraseRange lower upper : Action D ν _) := by
  refine (steady_inspect fun _ _ => Bound.settles_start lower).bind fun start => ?_
  refine (steady_inspect fun _ _ => Bound.settles_stop upper).bind fun stop => ?_
  split
  · exact (steady_throw (f := .rangeReversed start stop) nofun).bind fun _ => steady_eraseSpan _ _
  · exact (steady_pure ()).bind fun _ => steady_eraseSpan _ _

/-- One call of the test in a pass. The value that it leaves is in the table when it
answers, and also when it faults; a value that fails the test is not, even if it cannot
be given up. -/
theorem retainSpan_call [Disposal ν] {σ : Type} {keep : Test σ κ ν} {Q : σ → Table D ν → Prop}
    {E : Fault → Table D ν → Prop} (h : t.Shows m) {count start : Nat} {k : κ} {v : ν} {s : σ}
    (hv : m start = some v) (hk : D.keyAt start = .ok k)
    (hKept : ∀ w s', keep s k v = (.ok true, w, s') → ∀ u : Table D ν,
      u.Shows (Function.update m start (some w)) → Ends (retainSpan keep count (start + 1) s') u Q E)
    (hErased : ∀ w s', keep s k v = (.ok false, w, s') → ∀ u : Table D ν,
      u.Shows (Function.update m start none) → Ends (retainSpan keep count (start + 1) s') u Q E)
    (hFault : ∀ f w s', keep s k v = (.error f, w, s') → ∀ u : Table D ν,
      u.Shows (Function.update m start (some w)) → E f u)
    (hStop : ∀ f, Disposal.Stops ν f → ∀ u : Table D ν, u.Shows (Function.update m start none) → E f u) :
    Ends (retainSpan keep (count + 1) start s) t Q E := by
  obtain ⟨hs, hSet⟩ := h.setHeld hv (keep s k v).2.1
  rw [retainSpan, ends_get_bind, h.holds_of_some hv]
  refine ends_bind.mpr ((ends_inspect_ok (h.valueAt hv)).mpr (ends_bind.mpr ?_))
  refine (ends_inspect_ok hk).mpr (ends_bind.mpr ((ends_setSlot hs).mpr (ends_bind.mpr ?_)))
  rcases hCall : keep s k v with ⟨answer, w, s'⟩
  rw [hCall] at hSet
  cases answer with
  | error f => exact hFault f w s' hCall _ hSet
  | ok kept =>
    cases kept with
    | true => exact hKept w s' hCall _ hSet
    | false =>
      apply (release_ends hSet (Function.update_self ..)).bind
      · intro _ u hu
        rw [Function.update_idem] at hu
        exact hErased w s' hCall u hu
      · rintro f u ⟨hf, hu⟩
        rw [Function.update_idem] at hu
        exact hStop f hf.stops u hu

theorem retainSpan_ends [Disposal ν] {σ : Type} {keep : Test σ κ ν}
    (hKeep : ∀ s k v, Settles (keep s k v).1 fun _ => True) (h : t.Sound) (count start : Nat) (s : σ) :
    Ends (retainSpan keep count start s) t
      (fun _ u => u.Sound ∧ ∀ i, u.holds i = true → t.holds i = true)
      (fun f u => f.Regular ∧ u.Sound) := by
  induction count generalizing t start s with
  | zero => exact ⟨h, fun _ hi => hi⟩
  | succ count ih =>
    cases hv : t.live start with
    | none =>
      rw [retainSpan, ends_get_bind, h.shows.holds_of_none hv]
      exact ih h (start + 1) s
    | some v =>
      have hRest : ∀ {o : Option ν} {u : Table D ν}, u.Shows (Function.update t.live start o) → ∀ s',
          Ends (retainSpan keep count (start + 1) s') u
            (fun _ w => w.Sound ∧ ∀ i, w.holds i = true → t.holds i = true) (fun f w => f.Regular ∧ w.Sound) := by
        intro o u hu s'
        apply (ih hu.sound (start + 1) s').mono
        · refine fun _ w hw => ⟨hw.1, fun i hi => ?_⟩
          obtain rfl | hne := eq_or_ne i start
          · exact h.shows.holds_of_some hv
          · have hHolds := hw.2 i hi
            rwa [hu.holds, Function.update_of_ne hne, h.isSome_live] at hHolds
        · exact fun f w hf => hf
      cases hKey : D.keyAt start with
      | ok k =>
        refine retainSpan_call h.shows hv hKey ?_ ?_ ?_ ?_
        · exact fun w s' _ u hu => hRest hu s'
        · exact fun w s' _ u hu => hRest hu s'
        · intro f w s' hCall u hu
          have hSettles := hKeep s k v
          rw [hCall] at hSettles
          exact ⟨hSettles, hu.sound⟩
        · exact fun f hf u hu => ⟨hf.regular, hu.sound⟩
      | error f =>
        rw [retainSpan, ends_get_bind, h.shows.holds_of_some hv]
        refine ends_bind.mpr ((ends_inspect_ok (h.shows.valueAt hv)).mpr (ends_bind.mpr ?_))
        exact (ends_inspect_error hKey).mpr ⟨(Domain.keyAt_error hKey).regular, h⟩

theorem steady_retain [Disposal ν] {σ : Type} {keep : Test σ κ ν}
    (hKeep : ∀ s k v, Settles (keep s k v).1 fun _ => True) (s : σ) :
    Steady (retain keep s : Action D ν _) := by
  intro t ht
  exact (retainSpan_ends hKeep ht D.count 0 s).mono (fun _ u hu => hu.1) fun f u hf => hf

theorem Sound.size_le {u : Table D ν} (ht : t.Sound) (hu : u.Sound)
    (h : ∀ i, u.holds i = true → t.holds i = true) : u.size ≤ t.size := by
  rw [hu.size_eq, ht.size_eq, hu.trimmed.size_eq_count, ht.trimmed.size_eq_count]
  exact Nat.count_mono_left fun i _ => h i

/-- The number of entries erased is never computed as a difference below zero. -/
theorem steady_eraseIf [Disposal ν] {σ : Type} {test : σ → κ → ν → Except Fault Bool × σ}
    (hTest : ∀ s k v, Settles (test s k v).1 fun _ => True) (s : σ) :
    Steady (eraseIf test s : Action D ν _) := by
  intro t ht
  rw [eraseIf, ends_get_bind]
  have hKeep : ∀ s k v, Settles ((test s k v).1.map (!·)) fun _ => True :=
    fun s k v => (hTest s k v).map fun _ _ => trivial
  apply (retainSpan_ends hKeep ht D.count 0 s).bind
  · rintro s' u ⟨hu, hSub⟩
    rw [ends_get_bind, if_neg (Nat.not_lt.mpr (ht.size_le hu hSub))]
    exact hu
  · exact fun f u hf => hf

/-! ## Copying -/

/-- Entries of a sound table can be made in a table that has none of them. -/
theorem constructFrom_ends {σ : Type} {copy : Copier σ ν} (hCopy : ∀ s v, Settles (copy s v).1 fun _ => True)
    {source : Table D ν} (hSource : source.Sound) (h : t.Sound) {is : List Nat} (hNodup : is.Nodup)
    (hLive : ∀ i ∈ is, source.holds i = true) (hVacant : ∀ i ∈ is, t.holds i = false) (s : σ) :
    Ends (constructFrom copy source is s) t (fun _ u => u.Sound) (fun f u => f.Regular ∧ u.Sound) := by
  induction is generalizing t s with
  | nil => exact h
  | cons i is ih =>
    obtain ⟨hFirst, hRest⟩ := List.nodup_cons.mp hNodup
    obtain ⟨_, v, _, hv⟩ := hSource.exists_live (hLive i List.mem_cons_self)
    have hi : t.live i = none := live_of_not_holds (hVacant i List.mem_cons_self)
    refine ends_bind.mpr ((ends_inspect_ok (hSource.shows.valueAt hv)).mpr (ends_bind.mpr ?_))
    have hMade := hCopy s v
    refine ends_inspect ?_ fun f hf => ?_
    · intro w _
      apply (construct_ends h.shows hi w).bind
      · intro _ u hu
        refine ih hu.sound hRest (fun j hj => hLive j (List.mem_cons_of_mem i hj)) (fun j hj => ?_) _
        have hne : j ≠ i := by
          rintro rfl
          exact hFirst hj
        rw [hu.holds, Function.update_of_ne hne, h.isSome_live]
        exact hVacant j (List.mem_cons_of_mem i hj)
      · exact fun f u hf => ⟨hf.1.regular, hf.2.sound⟩
    · rw [hf] at hMade
      exact ⟨hMade, h⟩

/-- A table that has no entries can be given those of a sound one. -/
theorem constructCopies_ends {σ : Type} {copy : Copier σ ν} (hCopy : ∀ s v, Settles (copy s v).1 fun _ => True)
    {source : Table D ν} (hSource : source.Sound) (h : t.Shows fun _ => none) (s : σ) :
    Ends (constructCopies copy s source) t (fun _ u => u.Sound) (fun f u => f.Regular ∧ u.Sound) := by
  refine constructFrom_ends hCopy hSource h.sound source.occupancy.nodup_toList ?_ ?_ s
  · exact fun i hi => Bitmap.mem_toList.mp hi
  · exact fun i _ => h.holds i

theorem steady_cloneFromWith [Disposal ν] {σ : Type} {copy : Copier σ ν}
    (hCopy : ∀ s v, Settles (copy s v).1 fun _ => True) {source : Table D ν} (hSource : source.Sound) (s : σ) :
    Steady (cloneFromWith copy s source) := by
  intro t ht
  apply (clear_ends ht.shows).bind
  · exact fun _ u hu => constructCopies_ends hCopy hSource hu s
  · rintro f u ⟨⟨_, hf⟩, hu⟩
    exact ⟨hf.stops.regular, hu⟩

theorem sound_of_unfinished {x : Action D ν α}
    (h : Ends x empty (fun _ u => u.Sound) (fun f u => f.Regular ∧ u.Sound)) : ∀ u ∈ unfinished x, u.Sound := by
  rw [unfinished]
  obtain ⟨_, u, hRun, hu⟩ | ⟨f, u, hRun, -, hu⟩ := h.ran
  · rw [hRun]
    exact nofun
  · rw [hRun]
    exact fun _ hw => List.mem_singleton.mp hw ▸ hu

theorem Steady.sound_of_unfinished {x : Action D ν α} (h : Steady x) : ∀ u ∈ unfinished x, u.Sound :=
  Table.sound_of_unfinished (h empty shows_empty.sound)

theorem settles_build {x : Action D ν Unit}
    (h : Ends x empty (fun _ u => u.Sound) (fun f u => f.Regular ∧ u.Sound)) : Settles (build x) Sound := by
  rw [build]
  obtain ⟨_, u, hRun, hu⟩ | ⟨f, _, hRun, hf, -⟩ := h.ran
  · rw [hRun]
    exact hu
  · rw [hRun]
    exact hf

theorem Steady.settles_build {x : Action D ν Unit} (h : Steady x) : Settles (build x) Sound :=
  Table.settles_build (h empty shows_empty.sound)

theorem settles_cloneWith {σ : Type} {copy : Copier σ ν} (hCopy : ∀ s v, Settles (copy s v).1 fun _ => True)
    (h : t.Sound) (s : σ) : Settles (t.cloneWith copy s) Sound := by
  apply settles_build
  exact ends_discard.mpr (constructCopies_ends hCopy h shows_empty s)

theorem takeAll_ends (t : Table D ν) :
    Ends takeAll t (fun r u => r = t ∧ u = empty) (fun f u => f.Regular ∧ u = t) := by
  apply ends_bind.mpr
  apply ends_inspect
  · intro left hLeft
    rw [fresh] at hLeft
    split at hLeft
    · cases hLeft
      exact ⟨rfl, rfl⟩
    · cases hLeft
  · intro f hf
    rw [fresh] at hf
    split at hf
    · cases hf
    · cases hf
      exact ⟨nofun, rfl⟩

end Table

end OrdinalMap
