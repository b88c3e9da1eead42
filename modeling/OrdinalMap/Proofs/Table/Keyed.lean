import OrdinalMap.Proofs.Table.Position

/-! # Operations by key

What each operation on the entry of a key returns and does to the partial
function that a table shows. An operation faults where the domain has no room or
no key for an ordinal, where the caller is told so, and where a value cannot be
given up. In the last case it has done to the entries what it was to do.
-/

namespace OrdinalMap

set_option autoImplicit false

def Domain.enter {κ ν : Type} (D : Domain κ) (m : Nat → Option ν) (p : κ × ν) : Nat → Option ν :=
  Function.update m (D.ordinal p.1) (some ((m (D.ordinal p.1)).getD p.2))

namespace Table

variable {κ ν : Type} {D : Domain κ} {t : Table D ν} {m : Nat → Option ν}

theorem Shows.contains (h : t.Shows m) (k : κ) : t.contains k = (m (D.ordinal k)).isSome :=
  h.holds (D.ordinal k)

theorem Shows.get (h : t.Shows m) (k : κ) : t.get? k = .ok (m (D.ordinal k)) := by
  rw [get?, h.contains]
  cases hi : m (D.ordinal k) with
  | none => rfl
  | some v =>
    rw [h.valueAt hi]
    rfl

theorem place_ends (t : Table D ν) (i : Nat) :
    Ends (place i) t (fun p u => p = D.position .writable i ∧ u = t) (fun f u => D.Misfit i f ∧ u = t) := by
  obtain hi | hi := Nat.lt_or_ge D.count i
  · exact (ends_inspect_error (t.positionAt_of_lt hi)).mpr ⟨.past hi, rfl⟩
  · exact (ends_inspect_ok (t.positionAt_forward hi)).mpr ⟨rfl, rfl⟩

theorem placed_ends (h : t.Shows m) (i : Nat) (new : Bool) :
    Ends (do return (← place i, new)) t (fun r u => r = (D.position .writable i, new) ∧ u.Shows m)
      (fun f u => D.Misfit i f ∧ u.Sound) := by
  apply (place_ends t i).bind
  · rintro _ _ ⟨rfl, rfl⟩
    exact ⟨rfl, h⟩
  · rintro f _ ⟨hf, rfl⟩
    exact ⟨hf, h.sound⟩

/-- `make` runs once if the key has no entry, and not at all if it has one. -/
theorem emplace_ends {σ : Type} (h : t.Shows m) (k : κ) (make : σ → Except Fault ν × σ) (s : σ) :
    Ends (emplace k make s) t
      (fun r u => match m (D.ordinal k) with
        | some _ => r = (D.position .writable (D.ordinal k), false, s) ∧ u.Shows m
        | none => ∃ v, (make s).1 = .ok v ∧ r = (D.position .writable (D.ordinal k), true, (make s).2) ∧
          u.Shows (Function.update m (D.ordinal k) (some v)))
      (fun f u => D.Misfit (D.ordinal k) f ∧ u.Sound ∨
        m (D.ordinal k) = none ∧ (make s).1 = .error f ∧ u = t) := by
  rw [emplace, ends_get_bind, h.contains]
  cases hi : m (D.ordinal k) with
  | some w =>
    apply (place_ends t (D.ordinal k)).bind
    · rintro _ _ ⟨rfl, rfl⟩
      exact ⟨rfl, h⟩
    · rintro f _ ⟨hf, rfl⟩
      exact .inl ⟨hf, h.sound⟩
  | none =>
    refine ends_bind.mpr (ends_inspect ?_ fun f hf => .inr ⟨rfl, hf, rfl⟩)
    intro v hv
    apply (construct_ends h hi v).bind
    · intro _ u hu
      apply (place_ends u (D.ordinal k)).bind
      · rintro _ _ ⟨rfl, rfl⟩
        exact ⟨v, hv, rfl, hu⟩
      · rintro f _ ⟨hf, rfl⟩
        exact .inl ⟨hf, hu.sound⟩
    · exact fun f u hf => .inl ⟨hf.1, hf.2.sound⟩

theorem modifyOrInsert_ends (h : t.Shows m) (k : κ) (initial : ν) (f : ν → ν) :
    Ends (modifyOrInsert k initial f) t
      (fun v u => v = f ((m (D.ordinal k)).getD initial) ∧
        u.Shows (Function.update m (D.ordinal k) (some v)))
      (fun e u => D.Misfit (D.ordinal k) e ∧ u.Shows m) := by
  rw [modifyOrInsert, ends_get_bind, h.contains]
  cases hi : m (D.ordinal k) with
  | none =>
    apply (construct_ends h hi initial).bind
    · intro _ u hu
      apply (modifyAt_ends hu (Function.update_self _ _ m) f).mono
      · rintro _ w ⟨rfl, hw⟩
        rw [Function.update_idem] at hw
        exact ⟨rfl, hw⟩
      · exact fun e u => False.elim
    · exact fun e u he => he
  | some v =>
    apply (modifyAt_ends h hi f).mono
    · rintro _ u ⟨rfl, hu⟩
      exact ⟨rfl, hu⟩
    · exact fun e u => False.elim

theorem modify?_ends (h : t.Shows m) (k : κ) (f : ν → ν) :
    Ends (modify? k f) t
      (fun r u => r = (m (D.ordinal k)).map f ∧ u.Shows (Function.update m (D.ordinal k) r))
      (fun _ _ => False) := by
  rw [modify?, ends_get_bind, h.contains]
  cases hi : m (D.ordinal k) with
  | none =>
    constructor
    · rfl
    · rw [← hi, Function.update_eq_self]
      exact h
  | some v =>
    apply (modifyAt_ends h hi f).bind
    · rintro _ u ⟨rfl, hu⟩
      exact ⟨rfl, hu⟩
    · exact fun e u he => he

theorem modifyRequired_ends (h : t.Shows m) (P : Policy) (site : String) (k : κ) (f : ν → ν) :
    Ends (modifyRequired P site k f) t
      (fun r u => ∃ v, m (D.ordinal k) = some v ∧ r = f v ∧
        u.Shows (Function.update m (D.ordinal k) (some (f v))))
      (fun e u => m (D.ordinal k) = none ∧ e = t.absent P site k ∧ u = t) := by
  rw [modifyRequired, ends_get_bind, h.contains]
  cases hi : m (D.ordinal k) with
  | none => exact ⟨rfl, rfl, rfl⟩
  | some v =>
    apply (modifyAt_ends h hi f).mono
    · rintro _ u ⟨rfl, hu⟩
      exact ⟨v, rfl, rfl, hu⟩
    · exact fun e u => False.elim

theorem takeEntry_ends (h : t.Shows m) (k : κ) :
    Ends (Table.takeEntry? k) t
      (fun r u => r.map Prod.snd = m (D.ordinal k) ∧ (∀ p ∈ r, D.values[D.ordinal k]? = some p.1) ∧
        u.Shows (Function.update m (D.ordinal k) none))
      (fun f u => D.Misfit (D.ordinal k) f ∧ u = t) := by
  rw [Table.takeEntry?, ends_get_bind, h.contains]
  cases hi : m (D.ordinal k) with
  | none =>
    refine ⟨rfl, nofun, ?_⟩
    rw [← hi, Function.update_eq_self]
    exact h
  | some v =>
    apply (extract_ends h hi).bind
    · rintro ⟨key, w⟩ u ⟨hKey, rfl, hu⟩
      refine ⟨rfl, ?_, hu⟩
      rintro p ⟨⟩
      exact hKey
    · exact fun f u hf => hf

theorem take?_ends (h : t.Shows m) (k : κ) :
    Ends (take? k) t
      (fun r u => r = m (D.ordinal k) ∧ u.Shows (Function.update m (D.ordinal k) none))
      (fun f u => D.Misfit (D.ordinal k) f ∧ u = t) := by
  refine (takeEntry_ends h k).bind ?_ fun f u hf => hf
  rintro r u ⟨hr, _, hu⟩
  exact ⟨hr, hu⟩

/-- The table without entries, if their values stay where they are. -/
def reset (t : Table D ν) : Table D ν := { t with occupancy := .empty, size := 0 }

theorem shows_reset (t : Table D ν) : t.reset.Shows fun _ => none :=
  .intro Bitmap.size_empty.symm Bitmap.trimmed_empty fun i => Bitmap.contains_empty i

theorem Shows.reset_eq (h : t.Shows fun _ => none) : t.reset = t := by
  obtain ⟨hOccupancy, hSize⟩ := h.isEmpty
  rw [reset, ← hOccupancy, ← hSize]

theorem reset_ends (t : Table D ν) :
    Ends (do modify fun t : Table D ν => { t with occupancy := t.occupancy.clear, size := 0 }; audit) t
      (fun _ u => u = t.reset) (fun _ _ => False) := by
  have hSize : 0 = t.occupancy.clear.size := t.occupancy.size_clear.symm
  refine (ends_audit (t := { t with occupancy := t.occupancy.clear, size := 0 }) hSize).mpr ?_
  rw [t.occupancy.clear_eq, reset]

variable [Disposal ν]

theorem insert_ends (h : t.Shows m) (k : κ) (v : ν) :
    Ends (insert k v) t
      (fun r u => r = (D.position .writable (D.ordinal k), !(m (D.ordinal k)).isSome) ∧
        u.Shows (D.enter m (k, v)))
      (fun f u => (D.Misfit (D.ordinal k) f ∨ Disposal.StopsOn ((m (D.ordinal k)).map fun _ => v) f) ∧
        u.Sound) := by
  apply (constructNew_ends h (D.ordinal k) v).bind
  · rintro _ u ⟨rfl, hu⟩
    exact (placed_ends hu _ _).mono (fun _ _ h => h) fun _ _ hf => ⟨.inl hf.1, hf.2⟩
  · exact fun f u hf => ⟨hf.1, hf.2.sound⟩

theorem assign_ends (h : t.Shows m) (k : κ) (v : ν) :
    Ends (assign k v) t
      (fun r u => r = (D.position .writable (D.ordinal k), !(m (D.ordinal k)).isSome) ∧
        u.Shows (Function.update m (D.ordinal k) (some v)))
      (fun f u => (D.Misfit (D.ordinal k) f ∨ Disposal.StopsOn (m (D.ordinal k)) f) ∧ u.Sound) := by
  rw [assign, ends_get_bind, h.contains]
  cases hi : m (D.ordinal k) with
  | none =>
    apply (construct_ends h hi v).bind
    · intro _ u hu
      exact (placed_ends hu _ true).mono (fun _ _ h => h) fun _ _ hf => ⟨.inl hf.1, hf.2⟩
    · exact fun f u hf => ⟨.inl hf.1, hf.2.sound⟩
  | some w =>
    apply (overwrite_ends h hi v).bind
    · intro _ u hu
      exact (placed_ends hu _ false).mono (fun _ _ h => h) fun _ _ hf => ⟨.inl hf.1, hf.2⟩
    · exact fun f u hf => ⟨.inr (hi ▸ hf.1), hf.2.sound⟩

theorem insertMany_ends (h : t.Shows m) (pairs : List (κ × ν)) :
    Ends (insertMany pairs) t (fun _ u => u.Shows (pairs.foldl D.enter m))
      (fun f u => ((∃ p ∈ pairs, D.Misfit (D.ordinal p.1) f) ∨ Disposal.Stops ν f) ∧ u.Sound) := by
  induction pairs generalizing t m with
  | nil => exact h
  | cons p pairs ih =>
    apply (constructNew_ends h (D.ordinal p.1) p.2).discard.bind
    · rintro _ u ⟨_, _, hu⟩
      apply (ih hu).mono
      · exact fun _ w hw => hw
      · rintro f w ⟨⟨q, hq, hf⟩ | hf, hw⟩
        · exact ⟨.inl ⟨q, List.mem_cons_of_mem p hq, hf⟩, hw⟩
        · exact ⟨.inr hf, hw⟩
    · rintro f u ⟨hf | hf, hu⟩
      · exact ⟨.inl ⟨p, List.mem_cons_self, hf⟩, hu.sound⟩
      · exact ⟨.inr hf.stops, hu.sound⟩

theorem erase_ends (h : t.Shows m) (k : κ) :
    Ends (erase k) t
      (fun n u => n = (m (D.ordinal k)).isSome.toNat ∧ u.Shows (Function.update m (D.ordinal k) none))
      (fun f u => Disposal.StopsOn (m (D.ordinal k)) f ∧ u.Shows (Function.update m (D.ordinal k) none)) := by
  rw [erase, ends_get_bind, h.contains]
  cases hi : m (D.ordinal k) with
  | none =>
    constructor
    · rfl
    · rw [← hi, Function.update_eq_self]
      exact h
  | some v =>
    apply (release_ends h hi).bind
    · intro _ u hu
      exact ⟨rfl, hu⟩
    · exact fun f u hf => ⟨hi ▸ hf.1, hf.2⟩

/-- The position returned is that of the next entry, which is none of the
ordinals up to the one erased. -/
theorem eraseAt_ends (h : t.Shows m) (k : κ) :
    Ends (eraseAt k) t
      (fun p u => m (D.ordinal k) ≠ none ∧ p = D.position .writable (u.liveFrom (D.ordinal k)) ∧
        u.Shows (Function.update m (D.ordinal k) none))
      (fun f u => m (D.ordinal k) = none ∧ f = .erasedVacant ∧ u = t ∨
        Disposal.StopsOn (m (D.ordinal k)) f ∧ u.Shows (Function.update m (D.ordinal k) none)) := by
  rw [eraseAt, ends_get_bind, h.contains]
  cases hi : m (D.ordinal k) with
  | none => exact .inl ⟨rfl, rfl, rfl⟩
  | some v =>
    apply (release_ends h hi).bind
    · intro _ u hu
      exact (ends_inspect_ok (u.positionFrom_eq _)).mpr ⟨nofun, rfl, hu⟩
    · exact fun f u hf => .inr ⟨hi ▸ hf.1, hf.2⟩

theorem releaseFrom_ends (h : t.Shows m) (limit start : Nat) :
    Ends (releaseFrom limit start) t (fun _ u => u.Sound)
      (fun f u => (∃ i, Disposal.StopsOn (m i) f) ∧ u.Sound) := by
  induction limit generalizing t m start with
  | zero => exact h.sound
  | succ limit ih =>
    rw [releaseFrom, ends_get_bind]
    cases hNext : t.occupancy.next? start with
    | none => exact h.sound
    | some i =>
      obtain ⟨v, hv⟩ := h.exists_of_holds (Bitmap.next?_eq_some hNext).2.1
      apply (release_ends h hv).bind
      · intro _ u hu
        apply (ih hu (i + 1)).mono fun _ _ hw => hw
        rintro f w ⟨⟨j, hStop⟩, hw⟩
        refine ⟨⟨j, ?_⟩, hw⟩
        obtain rfl | hj := eq_or_ne j i
        · rw [Function.update_self] at hStop
          obtain ⟨_, ⟨⟩, -⟩ := hStop
        · rwa [Function.update_of_ne hj] at hStop
      · exact fun f u hf => ⟨⟨i, hf.1⟩, hf.2.sound⟩

/-- Values that own something are disposed of before the table is reset. If that stops
part way, the table is not reset. -/
theorem clear_resets (h : t.Shows m) :
    Ends clear t
      (fun _ u => ∃ w, u = w.reset ∧ if Disposal.needed ν = true then releaseFrom D.capacity 0 t = .ok () w else w = t)
      (fun f u => (∃ i, Disposal.StopsOn (m i) f) ∧ u.Sound) := by
  rw [clear]
  split
  · obtain ⟨_, w, hRun, -⟩ | ⟨f, w, hRun, hf⟩ := (releaseFrom_ends h D.capacity 0).ran
    · rw [ends_bind, Ends, hRun]
      exact (reset_ends w).mono (fun _ _ hu => ⟨w, hu, rfl⟩) fun _ _ => False.elim
    · rw [ends_bind, Ends, hRun]
      exact hf
  · exact (reset_ends t).mono (fun _ _ hu => ⟨t, hu, rfl⟩) fun _ _ => False.elim

theorem clear_ends (h : t.Shows m) :
    Ends clear t (fun _ u => u.Shows fun _ => none) (fun f u => (∃ i, Disposal.StopsOn (m i) f) ∧ u.Sound) := by
  apply (clear_resets h).mono
  · rintro _ _ ⟨w, rfl, -⟩
    exact w.shows_reset
  · exact fun f u hf => hf

end Table

end OrdinalMap
