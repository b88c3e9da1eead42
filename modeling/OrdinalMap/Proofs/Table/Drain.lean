import OrdinalMap.Proofs.Table.Steady
import OrdinalMap.Proofs.TwoEnded
import OrdinalMap.Table.Drain

/-! # Draining sound tables

A drain moves out entries that its table has, so that the table stays sound
until nothing is left of it. While its bounds enclose all that is left, a pull
takes the ordinal off the end at which it pulls, and the table keeps the others.
-/

namespace OrdinalMap.Drain

set_option autoImplicit false

variable {κ ν : Type} {D : Domain κ}

theorem ends_extract {m : Nat → Option ν} {d : Drain D ν} {i : Nat} {v : ν} (hShows : d.table.Shows m)
    (hi : m i = some v) :
    Ends (extract i) d
      (fun p u => D.values[i]? = some p.1 ∧ p.2 = v ∧ u.table.Shows (Function.update m i none) ∧
        u.front = d.front ∧ u.back = d.back)
      (fun f u => D.Misfit i f ∧ u = d) := by
  rw [Ends, extract]
  obtain ⟨p, u, hRun, hKey, hValue, hu⟩ | ⟨f, u, hRun, hf, rfl⟩ := (Table.extract_ends hShows hi).ran
  · rw [hRun]
    exact ⟨hKey, hValue, hu, rfl, rfl⟩
  · rw [hRun]
    exact ⟨hf, rfl⟩

theorem extract_keeps {d : Drain D ν} (h : d.table.Sound) {i : Nat} (hi : d.table.holds i = true) :
    Ends (extract i) d (fun _ u => u.table.Sound) (fun f u => f.Regular ∧ u.table.Sound) := by
  obtain ⟨_, v, _, hv⟩ := h.exists_live hi
  apply (ends_extract h.shows hv).mono
  · exact fun _ u hu => hu.2.2.1.sound
  · rintro f _ ⟨hf, rfl⟩
    exact ⟨hf.regular, h⟩

theorem next_keeps {d : Drain D ν} (h : d.table.Sound) :
    Ends next d (fun _ u => u.table.Sound) (fun f u => f.Regular ∧ u.table.Sound) := by
  rw [next, ends_get_bind]
  cases hNext : (d.table.occupancy.next? d.front).filter (· < d.back) with
  | none => exact h
  | some i =>
    obtain ⟨hFound, _⟩ := Option.filter_eq_some_iff.mp hNext
    apply (extract_keeps (d := { d with front := i + 1 }) h (Bitmap.next?_eq_some hFound).2.1).bind
    · exact fun _ u hu => hu
    · exact fun f u hf => hf

theorem nextBack_keeps {d : Drain D ν} (h : d.table.Sound) :
    Ends nextBack d (fun _ u => u.table.Sound) (fun f u => f.Regular ∧ u.table.Sound) := by
  rw [nextBack, ends_get_bind]
  cases hNext : (d.table.occupancy.prev? d.back).filter (d.front ≤ ·) with
  | none => exact h
  | some i =>
    obtain ⟨hFound, _⟩ := Option.filter_eq_some_iff.mp hNext
    apply (extract_keeps (d := { d with back := i }) h (Bitmap.prev?_eq_some hFound).2.1).bind
    · exact fun _ u hu => hu
    · exact fun f u hf => hf

theorem pull_keeps (e : End) (d : Drain D ν) (h : d.table.Sound) :
    Ends (ends.pull e) d (fun _ u => u.table.Sound) (fun f u => f.Regular ∧ u.table.Sound) := by
  cases e with
  | front => exact next_keeps h
  | back => exact nextBack_keeps h

theorem run_keeps {t : Table D ν} (h : t.Sound) (es : List End) :
    (ends.run es (ofTable t)).2.table.Sound ∧ ∀ f, .error f ∈ (ends.run es (ofTable t)).1 → f.Regular :=
  TwoEnded.run_keeps pull_keeps es (ofTable t) h

variable {m : Nat → Option ν} {js : List Nat} {d : Drain D ν}

/-- The entries at some ordinals. -/
def keeping (m : Nat → Option ν) (js : List Nat) (i : Nat) : Option ν := if i ∈ js then m i else none

theorem keeping_takes {e : End} {rest : List Nat} {i : Nat} (hTakes : e.Takes js i rest) (hNodup : js.Nodup) :
    Function.update (keeping m js) i none = keeping m rest := by
  have hPerm := hTakes.perm
  obtain ⟨hNot, -⟩ := List.nodup_cons.mp (hPerm.nodup_iff.mp hNodup)
  funext j
  obtain rfl | hne := eq_or_ne j i
  · rw [Function.update_self, keeping, if_neg hNot]
  · have hMem : j ∈ js ↔ j ∈ rest := by rw [hPerm.mem_iff, List.mem_cons, or_iff_right hne]
    rw [Function.update_of_ne hne]
    simp only [keeping, hMem]

/-- The drain has the entries of `m` at the ordinals `js` left, all between its bounds. -/
structure Spans (m : Nat → Option ν) (js : List Nat) (d : Drain D ν) : Prop where
  shows : d.table.Shows (keeping m js)
  ascending : js.Pairwise (· < ·)
  live : ∀ i ∈ js, (m i).isSome = true
  front_le : ∀ i ∈ js, d.front ≤ i
  lt_back : ∀ i ∈ js, i < d.back

theorem Spans.holds_iff (h : d.Spans m js) (i : Nat) : d.table.holds i = true ↔ i ∈ js := by
  rw [h.shows.holds, keeping]
  split
  · rename_i hi
    exact iff_of_true (h.live i hi) hi
  · rename_i hi
    exact iff_of_false nofun hi

theorem Spans.size_eq (h : d.Spans m js) : d.table.size = js.length := by
  rw [h.shows.size_eq, Nat.count_eq_card_filter_range,
    ← List.toFinset_card_of_nodup (h.ascending.imp Nat.ne_of_lt)]
  congr 1
  ext i
  rw [Finset.mem_filter, Finset.mem_range, List.mem_toFinset, ← h.shows.holds, h.holds_iff]
  exact and_iff_right_of_imp fun hi => Bitmap.lt_of_contains ((h.holds_iff i).mpr hi)

theorem eq_cons_of_least {i : Nat} (hi : i ∈ js) (hAscending : js.Pairwise (· < ·)) (h : ∀ j ∈ js, i ≤ j) :
    ∃ rest, js = i :: rest := by
  cases js with
  | nil => cases hi
  | cons j rest =>
    obtain rfl | hRest := List.mem_cons.mp hi
    · exact ⟨rest, rfl⟩
    · have hlt := (List.pairwise_cons.mp hAscending).1 i hRest
      exact absurd (h j List.mem_cons_self) (Nat.not_le.mpr hlt)

theorem eq_append_of_greatest {i : Nat} (hi : i ∈ js) (hAscending : js.Pairwise (· < ·)) (h : ∀ j ∈ js, j ≤ i) :
    ∃ rest, js = rest ++ [i] := by
  obtain ⟨first, rest, rfl⟩ := List.append_of_mem hi
  cases rest with
  | nil => exact ⟨first, rfl⟩
  | cons j rest =>
    have hRest := (List.pairwise_cons.mp (List.pairwise_append.mp hAscending).2.1).1
    have hlt := hRest j List.mem_cons_self
    have hle := h j (List.mem_append_right first (List.mem_cons_of_mem i List.mem_cons_self))
    exact absurd hle (Nat.not_le.mpr hlt)

/-- The upward scan finds the first of the ordinals left. -/
theorem Spans.next (h : d.Spans m js) :
    match (d.table.occupancy.next? d.front).filter (· < d.back) with
    | some i => ∃ rest, js = i :: rest
    | none => js = [] := by
  cases hNext : d.table.occupancy.next? d.front with
  | none =>
    rw [Option.filter_none, List.eq_nil_iff_forall_not_mem]
    intro i hi
    have hVacant := Bitmap.next?_eq_none hNext (h.front_le i hi)
    rw [← Table.holds, (h.holds_iff i).mpr hi] at hVacant
    cases hVacant
  | some i =>
    obtain ⟨-, hFound, hSkipped⟩ := Bitmap.next?_eq_some hNext
    have hi := (h.holds_iff i).mp hFound
    rw [Option.filter_some, if_pos (decide_eq_true (h.lt_back i hi))]
    apply eq_cons_of_least hi h.ascending
    intro j hj
    by_contra hlt
    have hVacant := hSkipped j (h.front_le j hj) (Nat.lt_of_not_le hlt)
    rw [← Table.holds, (h.holds_iff j).mpr hj] at hVacant
    cases hVacant

/-- The downward scan finds the last of the ordinals left. -/
theorem Spans.prev (h : d.Spans m js) :
    match (d.table.occupancy.prev? d.back).filter (d.front ≤ ·) with
    | some i => ∃ rest, js = rest ++ [i]
    | none => js = [] := by
  cases hPrev : d.table.occupancy.prev? d.back with
  | none =>
    rw [Option.filter_none, List.eq_nil_iff_forall_not_mem]
    intro i hi
    have hVacant := Bitmap.prev?_eq_none hPrev (h.lt_back i hi)
    rw [← Table.holds, (h.holds_iff i).mpr hi] at hVacant
    cases hVacant
  | some i =>
    obtain ⟨-, hFound, hSkipped⟩ := Bitmap.prev?_eq_some hPrev
    have hi := (h.holds_iff i).mp hFound
    rw [Option.filter_some, if_pos (decide_eq_true (h.front_le i hi))]
    apply eq_append_of_greatest hi h.ascending
    intro j hj
    by_contra hlt
    have hVacant := hSkipped j (Nat.lt_of_not_le hlt) (h.lt_back j hj)
    rw [← Table.holds, (h.holds_iff j).mpr hj] at hVacant
    cases hVacant

/-- Taking an ordinal off an end and moving the bound there past it leaves the rest between the bounds. -/
theorem Spans.takes (h : d.Spans m js) {e : End} {i : Nat} {rest : List Nat} (hTakes : e.Takes js i rest)
    {u : Drain D ν} (hTable : u.table.Shows (Function.update (keeping m js) i none))
    (hFront : ∀ j ∈ rest, u.front ≤ j) (hBack : ∀ j ∈ rest, j < u.back) : u.Spans m rest where
  shows := keeping_takes hTakes (h.ascending.imp Nat.ne_of_lt) ▸ hTable
  ascending := h.ascending.sublist hTakes.sublist
  live i hi := h.live i (hTakes.sublist.subset hi)
  front_le := hFront
  lt_back := hBack

variable (D m) in
def Pulls (e : End) (js : List Nat) (d : Drain D ν) (r : Option (κ × ν)) (u : Drain D ν) : Prop :=
  js = [] ∧ r = none ∧ u = d ∨
    ∃ i rest p, e.Takes js i rest ∧ r = some p ∧ D.values[i]? = some p.1 ∧ m i = some p.2 ∧ u.Spans m rest

theorem next_ends (h : d.Spans m js) :
    Ends next d (Pulls D m .front js d) (fun f _ => ∃ i ∈ js, D.Misfit i f) := by
  have hNext := h.next
  rw [next, ends_get_bind]
  revert hNext
  cases (d.table.occupancy.next? d.front).filter (· < d.back) with
  | none => exact fun hNil => .inl ⟨hNil, rfl, rfl⟩
  | some i =>
    rintro ⟨rest, rfl⟩
    obtain ⟨v, hv⟩ := Option.isSome_iff_exists.mp (h.live i List.mem_cons_self)
    have hi : keeping m (i :: rest) i = some v := by rw [keeping, if_pos List.mem_cons_self, hv]
    apply (ends_extract (d := { d with front := i + 1 }) h.shows hi).bind
    · rintro p u ⟨hKey, rfl, hTable, hFront, hBack⟩
      refine .inr ⟨i, rest, p, rfl, rfl, hKey, hv, h.takes (e := .front) rfl hTable ?_ ?_⟩
      · rw [hFront]
        exact (List.pairwise_cons.mp h.ascending).1
      · rw [hBack]
        exact fun j hj => h.lt_back j (List.mem_cons_of_mem i hj)
    · exact fun f u hf => ⟨i, List.mem_cons_self, hf.1⟩

theorem nextBack_ends (h : d.Spans m js) :
    Ends nextBack d (Pulls D m .back js d) (fun f _ => ∃ i ∈ js, D.Misfit i f) := by
  have hPrev := h.prev
  rw [nextBack, ends_get_bind]
  revert hPrev
  cases (d.table.occupancy.prev? d.back).filter (d.front ≤ ·) with
  | none => exact fun hNil => .inl ⟨hNil, rfl, rfl⟩
  | some i =>
    rintro ⟨rest, rfl⟩
    have hMem : i ∈ rest ++ [i] := List.mem_append_right rest List.mem_cons_self
    obtain ⟨v, hv⟩ := Option.isSome_iff_exists.mp (h.live i hMem)
    have hi : keeping m (rest ++ [i]) i = some v := by rw [keeping, if_pos hMem, hv]
    apply (ends_extract (d := { d with back := i }) h.shows hi).bind
    · rintro p u ⟨hKey, rfl, hTable, hFront, hBack⟩
      refine .inr ⟨i, rest, p, rfl, rfl, hKey, hv, h.takes (e := .back) rfl hTable ?_ ?_⟩
      · rw [hFront]
        exact fun j hj => h.front_le j (List.mem_append_left [i] hj)
      · rw [hBack]
        exact fun j hj => (List.pairwise_append.mp h.ascending).2.2 j hj i List.mem_cons_self
    · exact fun f u hf => ⟨i, hMem, hf.1⟩

theorem pull_ends (h : d.Spans m js) (e : End) :
    Ends (ends.pull e) d (Pulls D m e js d) (fun f _ => ∃ i ∈ js, D.Misfit i f) := by
  cases e with
  | front => exact next_ends h
  | back => exact nextBack_ends h

/-- On a lawful domain a pull yields whatever is left at its end. -/
theorem pull_lawful (hD : D.Lawful) (h : d.Spans m js) (e : End) :
    Ends (ends.pull e) d (Pulls D m e js d) (fun _ _ => False) := by
  apply (pull_ends (D := D) h e).mono
  · exact fun _ _ hu => hu
  · rintro f _ ⟨i, hi, hMisfit⟩
    have hlt : i < D.capacity := Bitmap.lt_of_contains ((h.holds_iff i).mpr hi)
    obtain ⟨k, hk⟩ := hD.exists_key (hD.capacity_eq ▸ hlt)
    rw [← hD.ordinal_eq hk] at hMisfit
    exact hD.not_misfit k f hMisfit

end OrdinalMap.Drain
