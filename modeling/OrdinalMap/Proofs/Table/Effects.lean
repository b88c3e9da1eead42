import OrdinalMap.Proofs.Disposal
import OrdinalMap.Proofs.Domain
import OrdinalMap.Proofs.Table.Sound

/-! # Effects at one ordinal

What the actions at one ordinal do to the partial function that a table shows.
A domain whose data do not agree has ordinals for which an action finds no
room, and values may be such that giving them up stops part way. Nothing else
makes an action fault, and the table that it leaves is sound.
-/

namespace OrdinalMap

set_option autoImplicit false

/-- The faults at an ordinal that some of the data of the domain do not cover. -/
inductive Domain.Misfit {κ : Type} (D : Domain κ) (i : Nat) : Fault → Prop
  | slot (h : D.slots ≤ i) : Misfit D i (.indexOutOfBounds D.slots i)
  | bit (h : D.capacity ≤ i) : Misfit D i (.bitOutOfBounds i)
  | key (h : D.values.length ≤ i) : Misfit D i (.indexOutOfBounds D.values.length i)
  | past (h : D.count < i) : Misfit D i (.pastEnd i D.count)

theorem Domain.Misfit.ne_breach {κ : Type} {D : Domain κ} {i : Nat} {f : Fault} (h : D.Misfit i f)
    (b : Breach) : f ≠ .breach b := by
  cases h <;> exact nofun

theorem Domain.keyAt_eq_ok {κ : Type} {D : Domain κ} {i : Nat} {k : κ} : D.keyAt i = .ok k ↔ D.values[i]? = some k := by
  rw [Domain.keyAt]
  cases D.values[i]? with
  | some k' => rw [Except.ok.injEq, Option.some.injEq]
  | none => exact iff_of_false nofun nofun

theorem Domain.keyAt_error {κ : Type} {D : Domain κ} {i : Nat} {f : Fault} (h : D.keyAt i = .error f) :
    D.Misfit i f := by
  rw [Domain.keyAt] at h
  split at h
  · cases h
  · rename_i hi
    cases h
    exact .key (List.getElem?_eq_none_iff.mp hi)

theorem Domain.Lawful.not_misfit {κ : Type} {D : Domain κ} (hD : D.Lawful) (k : κ) (f : Fault) :
    ¬ D.Misfit (D.ordinal k) f := by
  have hlt := hD.ordinal_lt k
  obtain ⟨hValues, hSlots, hCapacity⟩ := hD.sizes
  intro h
  cases h <;> omega

theorem Domain.Lawful.not_misfit_or_stops {κ ν : Type} {D : Domain κ} [Disposal ν] [Disposal.Quiet ν]
    (hD : D.Lawful) (k : κ) (o : Option ν) (f : Fault) : ¬ (D.Misfit (D.ordinal k) f ∨ Disposal.StopsOn o f) :=
  not_or.mpr ⟨hD.not_misfit k f, Disposal.Quiet.not_stopsOn⟩

namespace Table

variable {κ ν α : Type} {D : Domain κ} {t : Table D ν} {i : Nat}
  {Q : Unit → Table D ν → Prop} {E : Fault → Table D ν → Prop}

theorem ends_inspect_ok {f : Table D ν → Except Fault α} {a : α} {Q : α → Table D ν → Prop}
    (h : f t = .ok a) : Ends (inspect f) t Q E ↔ Q a t := by
  simp [Ends, inspect, h]

theorem ends_inspect_error {f : Table D ν → Except Fault α} {e : Fault} {Q : α → Table D ν → Prop}
    (h : f t = .error e) : Ends (inspect f) t Q E ↔ E e t := by
  simp [Ends, inspect, h]

theorem ends_inspect {f : Table D ν → Except Fault α} {Q : α → Table D ν → Prop}
    (hQ : ∀ a, f t = .ok a → Q a t) (hE : ∀ e, f t = .error e → E e t) : Ends (inspect f) t Q E := by
  cases h : f t with
  | ok a => exact (ends_inspect_ok h).mpr (hQ a h)
  | error e => exact (ends_inspect_error h).mpr (hE e h)

theorem changeSlot_write (i : Nat) (v : ν) :
    (changeSlot i (·.write v) : Action D ν Unit) = setSlot i (.held v) := rfl

theorem ends_setSlot {s : Slot ν} (h : i < D.slots) :
    Ends (setSlot i s) t Q E ↔ Q () { t with slots := t.slots.set i s } := by
  simp [Ends, setSlot, changeSlot, h]

theorem ends_setSlot_of_le {s : Slot ν} (h : D.slots ≤ i) :
    Ends (setSlot i s) t Q E ↔ E (.indexOutOfBounds D.slots i) t := by
  simp [Ends, setSlot, changeSlot, Nat.not_lt.mpr h]

theorem ends_mark {c : Bitmap D.capacity} (h : t.occupancy.insert i = .ok c) :
    Ends (mark i) t Q E ↔ Q () { t with occupancy := c } := by
  simp [Ends, mark, h]

theorem ends_mark_of_le (h : D.capacity ≤ i) : Ends (mark i) t Q E ↔ E (.bitOutOfBounds i) t := by
  simp [Ends, mark, Bitmap.insert_of_le h]

theorem ends_unmark {c : Bitmap D.capacity} (h : t.occupancy.erase i = .ok c) :
    Ends (unmark i) t Q E ↔ Q () { t with occupancy := c } := by
  simp [Ends, unmark, h]

theorem ends_countUp : Ends countUp t Q E ↔ Q () { t with size := t.size + 1 } := Iff.rfl

theorem ends_countDown {size : Nat} (h : t.size = size + 1) :
    Ends countDown t Q E ↔ Q () { t with size } := by
  simp [Ends, countDown, h]

theorem ends_audit (h : t.size = t.occupancy.size) : Ends audit t Q E ↔ Q () t := by
  simp [Ends, audit, h]

variable {m : Nat → Option ν}

theorem construct_of_room (h : t.Shows m) (hi : m i = none) (hs : i < D.slots) (hc : i < D.capacity) (v : ν) :
    Ends (construct i v) t (fun _ u => u.Shows (Function.update m i (some v))) (fun _ _ => False) := by
  obtain ⟨c, hInsert⟩ := t.occupancy.insert_of_lt hc
  have hVacant := h.setVacant hi hs (.held v)
  have hEnter := hVacant.enter hi hs (Vector.getElem_set_self _) hInsert
  rw [construct, changeSlot_write, ends_get_bind, h.holds_of_none hi]
  simp only [Bool.false_eq_true, ↓reduceIte, ends_bind]
  rw [ends_setSlot hs, ends_mark (t := { t with slots := t.slots.set i (.held v) }) hInsert, ends_countUp]
  exact (ends_audit hEnter.sound.size_eq).mpr hEnter

/-- Making an entry either enters it or, for want of room, changes no entry. -/
theorem construct_ends (h : t.Shows m) (hi : m i = none) (v : ν) :
    Ends (construct i v) t (fun _ u => u.Shows (Function.update m i (some v)))
      (fun f u => D.Misfit i f ∧ u.Shows m) := by
  obtain hs | hs := Nat.lt_or_ge i D.slots
  · obtain hc | hc := Nat.lt_or_ge i D.capacity
    · exact (construct_of_room h hi hs hc v).mono (fun _ _ hu => hu) fun _ _ => False.elim
    · rw [construct, changeSlot_write, ends_get_bind, h.holds_of_none hi]
      simp only [Bool.false_eq_true, ↓reduceIte, ends_bind]
      rw [ends_setSlot hs, ends_mark_of_le hc]
      exact ⟨.bit hc, h.setVacant hi hs _⟩
  · rw [construct, changeSlot_write, ends_get_bind, h.holds_of_none hi]
    simp only [Bool.false_eq_true, ↓reduceIte, ends_bind]
    rw [ends_setSlot_of_le hs]
    exact ⟨.slot hs, h⟩

/-- An entry can be moved out if its ordinal has a key; else nothing happens. -/
theorem extract_ends (h : t.Shows m) {v : ν} (hi : m i = some v) :
    Ends (extract i) t
      (fun r u => D.values[i]? = some r.1 ∧ r.2 = v ∧ u.Shows (Function.update m i none))
      (fun f u => D.Misfit i f ∧ u = t) := by
  obtain ⟨c, hErase⟩ := t.occupancy.erase_of_lt (h.lt_capacity hi)
  obtain ⟨size, hCount, hSize, hLeave⟩ := h.leave hi hErase
  have hs := h.lt_slots hi
  rw [extract, ends_get_bind, h.holds_of_some hi]
  simp only [↓reduceIte, ends_bind]
  refine ends_inspect ?_ fun e he => ⟨Domain.keyAt_error he, rfl⟩
  intro k hk
  have hSlotAt : Table.slotAt { t with occupancy := c, size } i = .ok (.held v) := h.slotAt hi
  rw [ends_unmark hErase, ends_countDown (t := { t with occupancy := c }) hCount,
    ends_audit (t := { t with occupancy := c, size }) hSize]
  rw [ends_inspect_ok hSlotAt, ends_inspect_ok (f := fun _ => (Slot.held v).take) rfl, ends_setSlot hs]
  exact ⟨Domain.keyAt_eq_ok.mp hk, rfl, hLeave.setVacant (Function.update_self i none m) hs _⟩

theorem modifyAt_ends (h : t.Shows m) {v : ν} (hi : m i = some v) (f : ν → ν) :
    Ends (modifyAt i f) t (fun w u => w = f v ∧ u.Shows (Function.update m i (some (f v))))
      (fun _ _ => False) := by
  obtain ⟨hs, hSet⟩ := h.setHeld hi (f v)
  rw [modifyAt, ends_bind, ends_inspect_ok (h.slotAt hi), ends_bind,
    ends_inspect_ok (f := fun _ => (Slot.held v).modify f) rfl, ends_bind, ends_setSlot hs,
    ends_inspect_ok (f := fun _ => (Slot.held (f v)).peek) rfl]
  exact ⟨rfl, hSet⟩

theorem modifyAt_frame (t : Table D ν) (i : Nat) (f : ν → ν) :
    Ends (modifyAt i f) t (fun _ u => u.occupancy = t.occupancy ∧ u.size = t.size) (fun _ u => u = t) := by
  refine ends_bind.mpr (ends_inspect (fun s _ => ends_bind.mpr ?_) fun _ _ => rfl)
  refine ends_inspect (fun s' hModify => ends_bind.mpr ?_) fun _ _ => rfl
  obtain hs | hs := Nat.lt_or_ge i D.slots
  · cases s with
    | unwritten => cases hModify
    | held v =>
      cases hModify
      exact (ends_setSlot hs).mpr ((ends_inspect_ok (f := fun _ => (Slot.held (f v)).peek) rfl).mpr ⟨rfl, rfl⟩)
  · exact (ends_setSlot_of_le hs).mpr rfl

section Disposal

variable [Disposal ν]

theorem giveUp_ends (t : Table D ν) (v : ν) :
    Ends (giveUp v) t (fun _ u => u = t) (fun f u => Disposal.dispose v = .error f ∧ u = t) :=
  ends_inspect (fun _ _ => rfl) fun _ hf => ⟨hf, rfl⟩

theorem constructNew_ends (h : t.Shows m) (i : Nat) (v : ν) :
    Ends (constructNew i v) t
      (fun new u => new = !(m i).isSome ∧ u.Shows (Function.update m i (some ((m i).getD v))))
      (fun f u => (D.Misfit i f ∨ Disposal.StopsOn ((m i).map fun _ => v) f) ∧ u.Shows m) := by
  rw [constructNew, ends_get_bind, h.holds]
  cases hi : m i with
  | some w =>
    apply (giveUp_ends t v).bind
    · rintro _ _ rfl
      refine ⟨rfl, ?_⟩
      rw [Option.getD_some, ← hi, Function.update_eq_self]
      exact h
    · rintro f _ ⟨hf, rfl⟩
      exact ⟨.inr ⟨v, rfl, hf⟩, h⟩
  | none =>
    apply (construct_ends h hi v).bind
    · intro _ u hu
      exact ⟨rfl, hu⟩
    · exact fun f u hf => ⟨.inl hf.1, hf.2⟩

/-- Where there is an entry, the value is given up, and nothing else happens. -/
theorem Shows.constructNew_of_live (h : t.Shows m) {w : ν} (hi : m i = some w) (v : ν) :
    constructNew i v t =
      match Disposal.dispose v with
      | .ok _ => EStateM.Result.ok false t
      | .error f => .error f t := by
  have hRun : constructNew i v t = (giveUp v >>= fun _ => pure false : Action D ν Bool) t := by
    change (if t.holds i = true then giveUp v >>= fun _ => pure false else construct i v >>= fun _ => pure true) t = _
    rw [if_pos (h.holds_of_some hi)]
  rw [hRun]
  cases hDispose : Disposal.dispose v with
  | ok _ => simp [bind, EStateM.bind, giveUp, inspect, hDispose, pure, EStateM.pure]
  | error f => simp [bind, EStateM.bind, giveUp, inspect, hDispose]

theorem disposeAt_ends {v : ν} (hs : i < D.slots) (h : t.slotAt i = .ok (.held v)) :
    Ends (disposeAt i) t (fun _ u => u = { t with slots := t.slots.set i .unwritten })
      (fun f u => Disposal.dispose v = .error f ∧ u = { t with slots := t.slots.set i .unwritten }) := by
  rw [disposeAt, ends_bind, ends_inspect_ok h, ends_bind, ends_setSlot hs, ends_discard]
  exact ends_inspect (fun _ _ => rfl) fun _ hf => ⟨Slot.dispose_held_eq_error.mp hf, rfl⟩

/-- The new value is there, whatever comes of the old one. -/
theorem overwrite_ends (h : t.Shows m) {w : ν} (hi : m i = some w) (v : ν) :
    Ends (overwrite i v) t (fun _ u => u.Shows (Function.update m i (some v)))
      (fun f u => Disposal.StopsOn (m i) f ∧ u.Shows (Function.update m i (some v))) := by
  obtain ⟨hs, hSet⟩ := h.setHeld hi v
  apply (disposeAt_ends hs (h.slotAt hi)).tryFinally
  · rintro _ _ rfl
    rw [changeSlot_write, ends_setSlot hs, Vector.set_set]
    exact hSet
  · rintro f _ ⟨hf, rfl⟩
    rw [changeSlot_write, ends_setSlot hs, Vector.set_set]
    exact ⟨⟨w, hi, hf⟩, hSet⟩

/-- The slots of `u` are those of `t`, except that values which own something have been
disposed of at these ordinals. -/
def Disposed (is : List Nat) (t u : Table D ν) : Prop :=
  ∀ j (h : j < D.slots), u.slots[j] = if Disposal.needed ν = true ∧ j ∈ is then .unwritten else t.slots[j]

/-- The entry is gone, and its slot is empty if its value was to be disposed of, even
where that stops part way. -/
theorem release_frame (h : t.Shows m) {v : ν} (hi : m i = some v) :
    Ends (release i) t
      (fun _ u => u.Shows (Function.update m i none) ∧ u.size + 1 = t.size ∧ Disposed [i] t u)
      (fun f u => Disposal.StopsOn (m i) f ∧ u.Shows (Function.update m i none)) := by
  obtain ⟨c, hErase⟩ := t.occupancy.erase_of_lt (h.lt_capacity hi)
  obtain ⟨size, hCount, hSize, hLeave⟩ := h.leave hi hErase
  have hs := h.lt_slots hi
  rw [release, ends_get_bind, h.holds_of_some hi]
  simp only [↓reduceIte, ends_bind]
  rw [ends_unmark hErase, ends_countDown (t := { t with occupancy := c }) hCount,
    ends_audit (t := { t with occupancy := c, size }) hSize]
  split
  · rename_i hNeeded
    have hSlotAt : Table.slotAt { t with occupancy := c, size } i = .ok (.held v) := h.slotAt hi
    have hVacant := hLeave.setVacant (Function.update_self i none m) hs .unwritten
    apply (disposeAt_ends hs hSlotAt).mono
    · rintro _ _ rfl
      refine ⟨hVacant, hCount.symm, fun j hj => ?_⟩
      simp [hNeeded, Vector.getElem_set, eq_comm]
    · rintro f _ ⟨hf, rfl⟩
      exact ⟨⟨v, hi, hf⟩, hVacant⟩
  · rename_i hNeeded
    refine ⟨hLeave, hCount.symm, fun j hj => ?_⟩
    simp [hNeeded]

theorem release_ends (h : t.Shows m) {v : ν} (hi : m i = some v) :
    Ends (release i) t (fun _ u => u.Shows (Function.update m i none))
      (fun f u => Disposal.StopsOn (m i) f ∧ u.Shows (Function.update m i none)) :=
  (release_frame h hi).mono (fun _ _ hu => hu.1) fun _ _ hf => hf

end Disposal

end Table

end OrdinalMap
