import OrdinalMap.Domain
import Mathlib.Data.List.Nodup

/-! # Lawful domains

In a lawful domain the ordinal of a key is its place in the list of keys, so
that keys and the numbers below their count determine each other.
-/

namespace OrdinalMap.Domain.Lawful

set_option autoImplicit false

variable {κ : Type} {D : Domain κ}

theorem sizes (h : D.Lawful) : D.values.length = D.count ∧ D.slots = D.count ∧ D.capacity = D.count := by
  have hContiguous := h.contiguous
  simp only [isContiguous, Bool.and_eq_true, beq_iff_eq] at hContiguous
  exact ⟨hContiguous.1.1.1, hContiguous.1.1.2, hContiguous.1.2⟩

theorem capacity_eq (h : D.Lawful) : D.capacity = D.count := h.sizes.2.2

theorem map_ordinal (h : D.Lawful) : D.values.map D.ordinal = List.range D.count := by
  have hContiguous := h.contiguous
  simp only [isContiguous, Bool.and_eq_true, beq_iff_eq] at hContiguous
  rw [hContiguous.2, h.sizes.1]

theorem ordinal_eq (h : D.Lawful) {i : Nat} {k : κ} (hk : D.values[i]? = some k) : D.ordinal k = i := by
  have hMap : (D.values.map D.ordinal)[i]? = some (D.ordinal k) := by rw [List.getElem?_map, hk]; rfl
  rw [h.map_ordinal] at hMap
  obtain ⟨_, hEq⟩ := List.getElem?_eq_some_iff.mp hMap
  rw [← hEq, List.getElem_range]

theorem getElem_ordinal (h : D.Lawful) (k : κ) : D.values[D.ordinal k]? = some k := by
  obtain ⟨i, hi⟩ := List.getElem?_of_mem (h.listed k)
  rwa [h.ordinal_eq hi]

theorem ordinal_lt (h : D.Lawful) (k : κ) : D.ordinal k < D.count := by
  obtain ⟨hlt, _⟩ := List.getElem?_eq_some_iff.mp (h.getElem_ordinal k)
  rwa [h.sizes.1] at hlt

theorem exists_key (h : D.Lawful) {i : Nat} (hi : i < D.count) : ∃ k, D.values[i]? = some k := by
  rw [← h.sizes.1] at hi
  exact ⟨D.values[i], List.getElem?_eq_getElem hi⟩

theorem ordinal_injective (h : D.Lawful) : Function.Injective D.ordinal := by
  intro k k' hEq
  have hk := h.getElem_ordinal k
  rw [hEq, h.getElem_ordinal k', Option.some.injEq] at hk
  exact hk.symm

theorem nodup_values (h : D.Lawful) : D.values.Nodup := by
  apply List.Nodup.of_map D.ordinal
  rw [h.map_ordinal]
  exact List.nodup_range

end OrdinalMap.Domain.Lawful
