import OrdinalMap.Proofs.Table.Model
import OrdinalMap.Table.Copy

/-! # Equality of sound tables

Tables are compared by their occupancy first and then entry by entry. As the
occupancy of a sound table has no bits but those of its entries, tables are equal
just if the partial functions that they show match, with values that are equal.
-/

namespace OrdinalMap

set_option autoImplicit false

variable {κ ν : Type} {D : Domain κ} [BEq ν] {o o' o'' : Option ν} {m l : Nat → Option ν}

/-- Both are missing, or both are there and equal. -/
def Matches (o o' : Option ν) : Prop := Option.Rel (fun v w => (v == w) = true) o o'

theorem Matches.isSome_eq (h : Matches o o') : o.isSome = o'.isSome := by
  cases h <;> rfl

theorem Matches.refl (hValue : ∀ v : ν, (v == v) = true) (o : Option ν) : Matches o o := by
  cases o with
  | none => exact .none
  | some v => exact .some (hValue v)

theorem Matches.symm (hValue : ∀ v w : ν, (v == w) = true → (w == v) = true) (h : Matches o o') : Matches o' o := by
  cases h with
  | none => exact .none
  | some h => exact .some (hValue _ _ h)

theorem Matches.trans (hValue : ∀ v w x : ν, (v == w) = true → (w == x) = true → (v == x) = true)
    (h : Matches o o') (h' : Matches o' o'') : Matches o o'' := by
  cases h with
  | none => exact h'
  | some h =>
    cases h' with
    | some h' => exact .some (hValue _ _ _ h h')

namespace Table

variable {t u : Table D ν}

theorem Shows.agree (ht : t.Shows m) (hu : u.Shows l) {is : List Nat}
    (h : ∀ i ∈ is, t.holds i = true ∧ u.holds i = true) :
    ∃ b, t.agree u is = .ok b ∧
      (b = true ↔ ∀ i ∈ is, Matches (m i) (l i)) := by
  induction is with
  | nil => exact ⟨true, rfl, iff_of_true rfl nofun⟩
  | cons i is ih =>
    obtain ⟨b, hAgree, hb⟩ := ih fun j hj => h j (List.mem_cons_of_mem i hj)
    obtain ⟨hti, hui⟩ := h i List.mem_cons_self
    obtain ⟨v, hv⟩ := ht.exists_of_holds hti
    obtain ⟨w, hw⟩ := hu.exists_of_holds hui
    rw [Table.agree, ht.valueAt hv, hu.valueAt hw, List.forall_mem_cons, hv, hw, Matches, Option.rel_some_some]
    dsimp only [bind, Except.bind]
    by_cases hEq : (v == w) = true
    · rw [if_pos hEq]
      exact ⟨b, hAgree, hb.trans (and_iff_right hEq).symm⟩
    · rw [if_neg hEq]
      exact ⟨false, rfl, iff_of_false Bool.false_ne_true fun hAll => hEq hAll.1⟩

/-- Where neither table has an entry, nothing needs to be compared. -/
theorem Shows.matches_of_holds (ht : t.Shows m) (hu : u.Shows l) (hHolds : ∀ i, u.holds i = t.holds i)
    (h : ∀ i, t.holds i = true → Matches (m i) (l i)) (i : Nat) : Matches (m i) (l i) := by
  cases hi : t.holds i with
  | true => exact h i hi
  | false =>
    rw [ht.eq_none hi, hu.eq_none ((hHolds i).trans hi)]
    exact .none

theorem Shows.occupancy_eq (ht : t.Shows m) (hu : u.Shows l) (h : ∀ i, Matches (m i) (l i)) :
    t.occupancy = u.occupancy := by
  apply ht.sound.trimmed.eq_of_contains hu.sound.trimmed
  intro i
  exact (ht.holds i).trans ((h i).isSome_eq.trans (hu.holds i).symm)

/-- Sound tables can always be compared. -/
theorem Shows.equal (ht : t.Shows m) (hu : u.Shows l) :
    ∃ b, t.equal u = .ok b ∧ (b = true ↔ ∀ i, Matches (m i) (l i)) := by
  rw [Table.equal]
  split
  · rename_i hOccupancy
    have hHolds : ∀ i, u.holds i = t.holds i := by
      intro i
      rw [Table.holds, ← hOccupancy]
      rfl
    have hBoth : ∀ i ∈ t.occupancy.toList, t.holds i = true ∧ u.holds i = true := by
      intro i hi
      rw [hHolds]
      exact ⟨Bitmap.mem_toList.mp hi, Bitmap.mem_toList.mp hi⟩
    obtain ⟨b, hAgree, hb⟩ := ht.agree hu hBoth
    refine ⟨b, hAgree, hb.trans ⟨fun hAll => ?_, fun hAll i _ => hAll i⟩⟩
    exact ht.matches_of_holds hu hHolds fun i hi => hAll i (Bitmap.mem_toList.mpr hi)
  · rename_i hOccupancy
    exact ⟨false, rfl, iff_of_false Bool.false_ne_true fun hAll => hOccupancy (ht.occupancy_eq hu hAll)⟩

theorem Shows.equal_iff (ht : t.Shows m) (hu : u.Shows l) : t.equal u = .ok true ↔ ∀ i, Matches (m i) (l i) := by
  obtain ⟨b, hEqual, hb⟩ := ht.equal hu
  rw [hEqual, Except.ok.injEq]
  exact hb

theorem beq_of_equal {b : Bool} (h : t.equal u = .ok b) : (t == u) = b := by
  simp only [BEq.beq, h]

/-- On a lawful domain it is enough to look at the ordinals of the keys. -/
theorem Shows.matches_iff (hD : D.Lawful) (ht : t.Shows m) (hu : u.Shows l) :
    (∀ i, Matches (m i) (l i)) ↔ ∀ k, Matches (m (D.ordinal k)) (l (D.ordinal k)) := by
  refine ⟨fun hAll k => hAll _, fun hAll i => ?_⟩
  have hm := congrFun (ht.spread_ordinal hD) i
  have hl := congrFun (hu.spread_ordinal hD) i
  rw [← hm, ← hl, Domain.spread, Domain.spread]
  cases D.values[i]? with
  | none => exact .none
  | some k => exact hAll k

end Table

end OrdinalMap
