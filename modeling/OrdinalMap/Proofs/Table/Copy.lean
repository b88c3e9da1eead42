import OrdinalMap.Proofs.Table.Keyed
import OrdinalMap.Table.Copy

/-! # Exact copies

If values are copied exactly, making the entries of one table in another gives that
one the same entries. This works in an empty table and in one that has been cleared:
no entry is in the way there, and every entry copied has its room in the domain.
-/

namespace OrdinalMap.Table

set_option autoImplicit false

variable {κ ν σ : Type} {D : Domain κ} {t source : Table D ν} {l m : Nat → Option ν} {copy : Copier σ ν}

theorem constructFrom_exact (hCopy : ∀ s v, (copy s v).1 = .ok v) (hSource : source.Shows l) (h : t.Shows m)
    {is : List Nat} (hNodup : is.Nodup) (hLive : ∀ i ∈ is, source.holds i = true) (hVacant : ∀ i ∈ is, m i = none)
    (s : σ) :
    Ends (constructFrom copy source is s) t (fun _ u => u.Shows fun i => if i ∈ is then l i else m i)
      (fun _ _ => False) := by
  induction is generalizing t m s with
  | nil =>
    simp only [List.not_mem_nil, ↓reduceIte]
    exact h
  | cons i is ih =>
    obtain ⟨hFirst, hRest⟩ := List.nodup_cons.mp hNodup
    obtain ⟨v, hv⟩ := hSource.exists_of_holds (hLive i List.mem_cons_self)
    have hMade : Ends (construct i v) t (fun _ u => u.Shows (Function.update m i (some v))) (fun _ _ => False) :=
      construct_of_room h (hVacant i List.mem_cons_self) (hSource.lt_slots hv) (hSource.lt_capacity hv) v
    refine ends_bind.mpr ((ends_inspect_ok (hSource.valueAt hv)).mpr (ends_bind.mpr ?_))
    refine (ends_inspect_ok (hCopy s v)).mpr (hMade.bind ?_ fun _ _ => False.elim)
    intro _ u hu
    have hne : ∀ j ∈ is, j ≠ i := by
      rintro j hj rfl
      exact hFirst hj
    have hStillVacant : ∀ j ∈ is, Function.update m i (some v) j = none := by
      intro j hj
      rw [Function.update_of_ne (hne j hj)]
      exact hVacant j (List.mem_cons_of_mem i hj)
    have hEntries : (fun j => if j ∈ is then l j else Function.update m i (some v) j) =
        fun j => if j ∈ i :: is then l j else m j := by
      funext j
      obtain rfl | hj := eq_or_ne j i
      · simp [hFirst, hv]
      · simp [hj]
    rw [← hEntries]
    exact ih hu hRest (fun j hj => hLive j (List.mem_cons_of_mem i hj)) hStillVacant _

/-- Made in a table without entries, the entries of a table are all there are. -/
theorem constructCopies_exact (hCopy : ∀ s v, (copy s v).1 = .ok v) (hSource : source.Shows l)
    (h : t.Shows fun _ => none) (s : σ) :
    Ends (constructCopies copy s source) t (fun _ u => u.Shows l) (fun _ _ => False) := by
  have hEntries : (fun i => if i ∈ source.occupancy.toList then l i else none) = l := by
    funext i
    split
    · rfl
    · rename_i hi
      rw [Bitmap.mem_toList, Bool.not_eq_true] at hi
      exact (hSource.eq_none hi).symm
  have hAll := constructFrom_exact hCopy hSource h source.occupancy.nodup_toList
    (fun i hi => Bitmap.mem_toList.mp hi) (fun _ _ => rfl) s
  rwa [hEntries] at hAll

theorem cloneWith_shows (hCopy : ∀ s v, (copy s v).1 = .ok v) (h : t.Shows m) (s : σ) :
    ∃ c, t.cloneWith copy s = .ok c ∧ c.Shows m := by
  obtain ⟨_, c, hRun, hc⟩ | ⟨_, _, _, hFalse⟩ := (constructCopies_exact hCopy h shows_empty s).discard.ran
  · refine ⟨c, ?_, hc.choose_spec⟩
    rw [cloneWith, build, hRun]
  · cases hFalse

/-- What was in the table before matters only if some value of it cannot be given up. -/
theorem cloneFromWith_shows [Disposal ν] (hCopy : ∀ s v, (copy s v).1 = .ok v) (hSource : source.Shows m)
    (h : t.Shows l) (s : σ) :
    Ends (cloneFromWith copy s source) t (fun _ u => u.Shows m) (fun f _ => ∃ i, Disposal.StopsOn (l i) f) := by
  apply (clear_ends h).bind
  · intro _ u hu
    exact (constructCopies_exact hCopy hSource hu s).mono (fun _ _ hw => hw) fun _ _ => False.elim
  · exact fun _ _ hf => hf.1

end OrdinalMap.Table
