import OrdinalMap.Proofs.Bitmap.Scanning
import OrdinalMap.Proofs.Ends
import OrdinalMap.Table.Erase
import Mathlib.Logic.Function.Basic

/-! # Sound tables

In a sound table the size is that of the occupancy, and each ordinal with an
entry has a slot that holds a value. `live` reads a table as a partial
function from ordinals to values, and `Shows` says of a sound table which
partial function that is. The actions at one ordinal are described by it.
-/

namespace OrdinalMap

set_option autoImplicit false

namespace Table

variable {κ ν : Type} {D : Domain κ}

def live (t : Table D ν) (i : Nat) : Option ν :=
  if t.holds i then
    match t.slots[i]? with
    | some (.held v) => some v
    | _ => none
  else none

structure Sound (t : Table D ν) : Prop where
  size_eq : t.size = t.occupancy.size
  trimmed : t.occupancy.Trimmed
  held : ∀ i, t.holds i = true → ∃ (h : i < D.slots) (v : ν), t.slots[i] = .held v

/-- The table is sound, and its entries are those of a partial function. -/
structure Shows (t : Table D ν) (m : Nat → Option ν) : Prop where
  sound : t.Sound
  live_eq : t.live = m

variable {t : Table D ν} {m : Nat → Option ν} {i : Nat}

theorem Sound.shows (h : t.Sound) : t.Shows t.live := ⟨h, rfl⟩

theorem live_of_not_holds (h : t.holds i = false) : t.live i = none := by simp [live, h]

theorem Sound.exists_live (h : t.Sound) (hi : t.holds i = true) :
    ∃ (hs : i < D.slots) (v : ν), t.slots[i] = .held v ∧ t.live i = some v := by
  obtain ⟨hs, v, hv⟩ := h.held i hi
  exact ⟨hs, v, hv, by simp [live, hi, hs, hv]⟩

theorem Sound.isSome_live (h : t.Sound) (i : Nat) : (t.live i).isSome = t.holds i := by
  cases hi : t.holds i with
  | false => rw [live_of_not_holds hi]; rfl
  | true =>
    obtain ⟨_, v, _, hv⟩ := h.exists_live hi
    rw [hv]
    rfl

theorem Shows.holds (h : t.Shows m) (i : Nat) : t.holds i = (m i).isSome := by
  rw [← h.live_eq, h.sound.isSome_live]

theorem Shows.holds_of_some (h : t.Shows m) {v : ν} (hi : m i = some v) : t.holds i = true := by
  rw [h.holds, hi]
  rfl

theorem Shows.holds_of_none (h : t.Shows m) (hi : m i = none) : t.holds i = false := by
  rw [h.holds, hi]
  rfl

theorem Shows.exists_of_holds (h : t.Shows m) (hi : t.holds i = true) : ∃ v, m i = some v := by
  rw [h.holds] at hi
  exact Option.isSome_iff_exists.mp hi

theorem Shows.eq_none (h : t.Shows m) (hi : t.holds i = false) : m i = none := by
  rwa [h.holds, Option.isSome_eq_false_iff, Option.isNone_iff_eq_none] at hi

theorem Shows.slot (h : t.Shows m) {v : ν} (hi : m i = some v) :
    ∃ hs : i < D.slots, t.slots[i] = .held v := by
  obtain ⟨hs, w, hw, hl⟩ := h.sound.exists_live (h.holds_of_some hi)
  rw [h.live_eq, hi, Option.some.injEq] at hl
  exact ⟨hs, hl ▸ hw⟩

theorem Shows.slotAt (h : t.Shows m) {v : ν} (hi : m i = some v) : t.slotAt i = .ok (.held v) := by
  obtain ⟨hs, hv⟩ := h.slot hi
  rw [Table.slotAt, dif_pos hs, hv]

theorem Shows.valueAt (h : t.Shows m) {v : ν} (hi : m i = some v) : t.valueAt i = .ok v := by
  rw [Table.valueAt, h.slotAt hi]
  rfl

theorem Shows.lt_slots (h : t.Shows m) {v : ν} (hi : m i = some v) : i < D.slots := (h.slot hi).1

theorem Shows.lt_capacity (h : t.Shows m) {v : ν} (hi : m i = some v) : i < D.capacity :=
  Bitmap.lt_of_contains (h.holds_of_some hi)

theorem Shows.size_eq (h : t.Shows m) :
    t.size = Nat.count (fun i => (m i).isSome = true) D.capacity := by
  rw [h.sound.size_eq, h.sound.trimmed.size_eq_count]
  exact Bitmap.count_congr fun i _ => by rw [← h.holds i, Table.holds]

theorem Shows.size_update (h : t.Shows m) {v : ν} (hi : m i = none) {u : Table D ν}
    (hu : u.Shows (Function.update m i (some v))) : u.size = t.size + 1 := by
  have hlt : i < D.capacity := hu.lt_capacity (Function.update_self i _ m)
  rw [hu.size_eq, h.size_eq]
  apply Bitmap.count_add_one hlt
  · rw [hi]
    exact nofun
  · intro j
    obtain rfl | hne := eq_or_ne j i
    · rw [Function.update_self]
      exact iff_of_true rfl (.inl rfl)
    · rw [Function.update_of_ne hne]
      exact (or_iff_right hne).symm

theorem Shows.intro (hSize : t.size = t.occupancy.size) (hTrimmed : t.occupancy.Trimmed)
    (hLive : ∀ i, match m i with
      | some v => t.holds i = true ∧ ∃ h : i < D.slots, t.slots[i] = .held v
      | none => t.holds i = false) : t.Shows m := by
  refine ⟨⟨hSize, hTrimmed, ?_⟩, ?_⟩
  · intro i hi
    specialize hLive i
    revert hLive
    cases m i with
    | some v => exact fun ⟨_, hs, hv⟩ => ⟨hs, v, hv⟩
    | none => intro hNone; rw [hi] at hNone; cases hNone
  · funext i
    specialize hLive i
    revert hLive
    cases m i with
    | some v =>
      rintro ⟨hi, hs, hv⟩
      simp [live, hi, hs, hv]
    | none => exact live_of_not_holds

theorem shows_empty : (empty : Table D ν).Shows fun _ => none :=
  .intro Bitmap.size_empty.symm Bitmap.trimmed_empty fun i => Bitmap.contains_empty i

theorem Shows.isEmpty (h : t.Shows fun _ => none) : t.occupancy = .empty ∧ t.size = 0 := by
  have hEmpty : t.occupancy = .empty :=
    h.sound.trimmed.eq_of_contains Bitmap.trimmed_empty fun i => (h.holds i).trans (Bitmap.contains_empty i).symm
  exact ⟨hEmpty, by rw [h.sound.size_eq, hEmpty, Bitmap.size_empty]⟩

/-- What lies in a slot without an entry does not matter. -/
theorem Shows.setVacant (h : t.Shows m) (hi : m i = none) (hs : i < D.slots) (s : Slot ν) :
    Shows { t with slots := t.slots.set i s } m := by
  refine .intro h.sound.size_eq h.sound.trimmed fun j => ?_
  cases hj : m j with
  | some v =>
    obtain ⟨hjs, hv⟩ := h.slot hj
    have hne : i ≠ j := by
      rintro rfl
      rw [hi] at hj
      cases hj
    exact ⟨h.holds_of_some hj, hjs, by rw [Vector.getElem_set_ne _ _ hne, hv]⟩
  | none => exact h.holds_of_none hj

theorem Shows.setHeld (h : t.Shows m) {w : ν} (hi : m i = some w) (v : ν) :
    ∃ hs : i < D.slots, Shows { t with slots := t.slots.set i (.held v) } (Function.update m i (some v)) := by
  refine ⟨h.lt_slots hi, .intro h.sound.size_eq h.sound.trimmed fun j => ?_⟩
  obtain rfl | hij := eq_or_ne j i
  · rw [Function.update_self]
    exact ⟨h.holds_of_some hi, h.lt_slots hi, Vector.getElem_set_self _⟩
  · rw [Function.update_of_ne hij]
    cases hj : m j with
    | some u =>
      obtain ⟨hjs, hv⟩ := h.slot hj
      exact ⟨h.holds_of_some hj, hjs, by rw [Vector.getElem_set_ne _ _ (Ne.symm hij), hv]⟩
    | none => exact h.holds_of_none hj

/-- Marking and counting a written slot makes an entry. -/
theorem Shows.enter (h : t.Shows m) (hi : m i = none) {v : ν} (hs : i < D.slots) (hv : t.slots[i] = .held v)
    {c : Bitmap D.capacity} (hc : t.occupancy.insert i = .ok c) :
    Shows { t with occupancy := c, size := t.size + 1 } (Function.update m i (some v)) := by
  have hSize : t.size + 1 = c.size := by
    rw [h.sound.trimmed.size_insert hc (h.holds_of_none hi), h.sound.size_eq]
  refine .intro hSize (h.sound.trimmed.insert hc) fun j => ?_
  have hHolds : Table.holds { t with occupancy := c, size := t.size + 1 } j = (decide (j = i) || t.holds j) :=
    Bitmap.contains_insert hc j
  obtain rfl | hij := eq_or_ne j i
  · rw [Function.update_self]
    exact ⟨by simp [hHolds], hs, hv⟩
  · rw [Function.update_of_ne hij]
    cases hj : m j with
    | some u => exact ⟨by simp [hHolds, h.holds_of_some hj], h.slot hj⟩
    | none => simp [hHolds, h.holds_of_none hj, hij]

/-- Unmarking and discounting ends an entry, and an entry can be discounted. -/
theorem Shows.leave (h : t.Shows m) {v : ν} (hi : m i = some v) {c : Bitmap D.capacity}
    (hc : t.occupancy.erase i = .ok c) :
    ∃ size, t.size = size + 1 ∧ size = c.size ∧
      Shows { t with occupancy := c, size } (Function.update m i none) := by
  have hSize : t.size = c.size + 1 := by
    rw [h.sound.size_eq, h.sound.trimmed.size_erase hc (h.holds_of_some hi)]
  refine ⟨c.size, hSize, rfl, .intro rfl (h.sound.trimmed.erase hc) fun j => ?_⟩
  have hHolds : Table.holds { t with occupancy := c, size := c.size } j = (decide (j ≠ i) && t.holds j) :=
    Bitmap.contains_erase hc j
  obtain rfl | hij := eq_or_ne j i
  · rw [Function.update_self]
    simp [hHolds]
  · rw [Function.update_of_ne hij]
    cases hj : m j with
    | some u => exact ⟨by simp [hHolds, h.holds_of_some hj, hij], h.slot hj⟩
    | none => simp [hHolds, h.holds_of_none hj]

end Table

end OrdinalMap
