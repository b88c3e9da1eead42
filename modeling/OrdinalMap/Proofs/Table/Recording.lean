import OrdinalMap.Proofs.Recording
import OrdinalMap.Proofs.Table.Equality

/-! # Recordings of sound tables

The size at the front of a recording tells how many entries follow, and of each
entry the ordinal comes before the value. If values are recorded faithfully, the
entries can therefore be split off one by one, and so can the whole recording.
-/

namespace OrdinalMap.Table

set_option autoImplicit false

variable {κ ν : Type} {D : Domain κ} [BEq ν] [Recordable ν] {t u : Table D ν} {m l : Nat → Option ν}
  {is js : List Nat} {r s a b : List Token}

theorem Shows.exists_recordEntries (hValue : Faithful ν) (ht : t.Shows m) (his : ∀ i ∈ is, t.holds i = true) :
    ∃ r, t.recordEntries is = .ok r := by
  induction is with
  | nil => exact ⟨[], rfl⟩
  | cons i is ih =>
    obtain ⟨rest, hRest⟩ := ih fun j hj => his j (List.mem_cons_of_mem i hj)
    obtain ⟨v, hv⟩ := ht.exists_of_holds (his i List.mem_cons_self)
    obtain ⟨r, hr⟩ := hValue.total v
    rw [Table.recordEntries, ht.valueAt hv, hRest]
    dsimp only [bind, Except.bind]
    rw [hr]
    exact ⟨_, rfl⟩

theorem Shows.recordEntries_cons (hValue : Faithful ν) (ht : t.Shows m) {i : Nat} (hi : t.holds i = true)
    (hr : t.recordEntries (i :: is) = .ok r) :
    ∃ v first rest, m i = some v ∧ Recordable.record v = .ok first ∧ t.recordEntries is = .ok rest ∧
      r = .size i :: (first ++ rest) := by
  obtain ⟨v, hv⟩ := ht.exists_of_holds hi
  obtain ⟨first, hFirst⟩ := hValue.total v
  rw [Table.recordEntries, ht.valueAt hv] at hr
  dsimp only [bind, Except.bind] at hr
  rw [hFirst] at hr
  cases hRest : t.recordEntries is with
  | error f =>
    rw [hRest] at hr
    cases hr
  | ok rest =>
    rw [hRest] at hr
    cases hr
    exact ⟨v, first, rest, hv, hFirst, rfl, rfl⟩

/-- What follows the entries does not matter as long as there are equally many of them. -/
theorem Shows.recordEntries_append_inj (hValue : Faithful ν) (ht : t.Shows m) (hu : u.Shows l)
    (hLength : is.length = js.length) (his : ∀ i ∈ is, t.holds i = true) (hjs : ∀ j ∈ js, u.holds j = true)
    (hr : t.recordEntries is = .ok r) (hs : u.recordEntries js = .ok s) (hEq : r ++ a = s ++ b) :
    is = js ∧ a = b ∧ ∀ i ∈ is, Matches (m i) (l i) := by
  induction is generalizing js r s with
  | nil =>
    obtain rfl := List.length_eq_zero_iff.mp hLength.symm
    cases hr
    cases hs
    exact ⟨rfl, hEq, nofun⟩
  | cons i is ih =>
    obtain ⟨j, js, rfl⟩ := List.exists_cons_of_length_eq_add_one hLength.symm
    obtain ⟨v, first, rest, hv, hFirst, hRest, rfl⟩ := ht.recordEntries_cons hValue (his i List.mem_cons_self) hr
    obtain ⟨w, first', rest', hw, hFirst', hRest', rfl⟩ := hu.recordEntries_cons hValue (hjs j List.mem_cons_self) hs
    rw [List.cons_append, List.cons_append, List.cons_eq_cons, Token.size.injEq, List.append_assoc,
      List.append_assoc] at hEq
    obtain ⟨rfl, hEq⟩ := hEq
    -- the recordings of the two values stand at the front now, and end at the same place
    obtain ⟨hMatch, hEq⟩ := hValue.append_inj hFirst hFirst' hEq
    obtain ⟨rfl, hSame, hAll⟩ := ih (Nat.succ.inj hLength) (fun k hk => his k (List.mem_cons_of_mem i hk))
      (fun k hk => hjs k (List.mem_cons_of_mem i hk)) hRest hRest' hEq
    refine ⟨rfl, hSame, List.forall_mem_cons.mpr ⟨?_, hAll⟩⟩
    rw [hv, hw]
    exact .some hMatch

theorem recordEntries_congr (hValue : Faithful ν) (ht : t.Shows m) (hu : u.Shows l)
    (h : ∀ i ∈ is, t.holds i = true ∧ Matches (m i) (l i)) : t.recordEntries is = u.recordEntries is := by
  induction is with
  | nil => rfl
  | cons i is ih =>
    obtain ⟨hi, hMatch⟩ := h i List.mem_cons_self
    obtain ⟨v, hv⟩ := ht.exists_of_holds hi
    rw [hv] at hMatch
    cases hw : l i with
    | none =>
      rw [hw] at hMatch
      cases hMatch
    | some w =>
      rw [hw, Matches, Option.rel_some_some, hValue.beq_iff] at hMatch
      rw [Table.recordEntries, Table.recordEntries, ht.valueAt hv, hu.valueAt hw,
        ih fun j hj => h j (List.mem_cons_of_mem i hj)]
      dsimp only [bind, Except.bind]
      rw [hMatch]

theorem Shows.exists_record (hValue : Faithful ν) (ht : t.Shows m) :
    ∃ r, t.recordEntries t.occupancy.toList = .ok r ∧ t.record = .ok (.size t.size :: r) := by
  obtain ⟨r, hr⟩ := ht.exists_recordEntries hValue fun i hi => Bitmap.mem_toList.mp hi
  refine ⟨r, hr, ?_⟩
  rw [Table.record, hr]
  rfl

theorem Shows.record_congr (hValue : Faithful ν) (ht : t.Shows m) (hu : u.Shows l)
    (h : ∀ i, Matches (m i) (l i)) : t.record = u.record := by
  have hOccupancy := ht.occupancy_eq hu h
  rw [Table.record, Table.record, ht.sound.size_eq, hu.sound.size_eq, ← hOccupancy,
    recordEntries_congr hValue ht hu fun i hi => ⟨Bitmap.mem_toList.mp hi, h i⟩]

theorem Shows.matches_of_prefix (hValue : Faithful ν) (ht : t.Shows m) (hu : u.Shows l)
    (hr : t.recordEntries t.occupancy.toList = .ok r) (hs : u.recordEntries u.occupancy.toList = .ok s)
    (hPrefix : Token.size t.size :: r <+: .size u.size :: s) : ∀ i, Matches (m i) (l i) := by
  rw [List.cons_prefix_cons, Token.size.injEq] at hPrefix
  obtain ⟨hSize, rest, hRest⟩ := hPrefix
  have hLength : t.occupancy.toList.length = u.occupancy.toList.length := by
    rw [ht.sound.trimmed.length_toList, hu.sound.trimmed.length_toList, ← ht.sound.size_eq, ← hu.sound.size_eq, hSize]
  obtain ⟨hOrdinals, -, hAll⟩ := ht.recordEntries_append_inj hValue hu hLength
    (fun i hi => Bitmap.mem_toList.mp hi) (fun i hi => Bitmap.mem_toList.mp hi) hr hs
    (hRest.trans (List.append_nil s).symm)
  apply ht.matches_of_holds hu
  · intro i
    rw [Bool.eq_iff_iff]
    change u.occupancy.contains i = true ↔ t.occupancy.contains i = true
    rw [← Bitmap.mem_toList, ← Bitmap.mem_toList, hOrdinals]
  · exact fun i hi => hAll i (Bitmap.mem_toList.mpr hi)

/-- Sound tables are recorded, equally just if they are equal, and no recording is
a proper prefix of another. -/
theorem Shows.record (hValue : Faithful ν) (ht : t.Shows m) (hu : u.Shows l) :
    ∃ r s, t.record = .ok r ∧ u.record = .ok s ∧ t.equal u = .ok (decide (r = s)) ∧ (r <+: s → r = s) := by
  obtain ⟨r, hEntries, hr⟩ := ht.exists_record hValue
  obtain ⟨s, hEntries', hs⟩ := hu.exists_record hValue
  have hSame : (∀ i, Matches (m i) (l i)) → Token.size t.size :: r = .size u.size :: s := by
    intro hAll
    have hEq := ht.record_congr hValue hu hAll
    rwa [hr, hs, Except.ok.injEq] at hEq
  have hMatches := ht.matches_of_prefix hValue hu hEntries hEntries'
  obtain ⟨b, hEqual, hb⟩ := ht.equal hu
  refine ⟨_, _, hr, hs, ?_, fun hPrefix => hSame (hMatches hPrefix)⟩
  rw [hEqual, Except.ok.injEq, Bool.eq_iff_iff, hb, decide_eq_true_iff]
  exact ⟨hSame, fun hEq => hMatches (hEq ▸ List.prefix_rfl)⟩

end OrdinalMap.Table
