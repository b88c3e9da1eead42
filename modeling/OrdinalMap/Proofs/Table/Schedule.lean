import OrdinalMap.Proofs.Domain
import OrdinalMap.Proofs.Table.Keyed
import OrdinalMap.Proofs.Table.Walk

/-! # Schedules on lawful domains

On a lawful domain no pull faults, and what a schedule yields at the front, what
is left of the walk, and what it yields at the back in reverse are together the
list of all entries in ascending order.
-/

namespace OrdinalMap

set_option autoImplicit false

theorem Table.Shows.get_listed {κ ν : Type} {D : Domain κ} {t : Table D ν} {m : Nat → Option ν} (h : t.Shows m)
    (hD : D.Lawful) {i : Nat} {k : κ} {v : ν} (hk : D.values[i]? = some k) (hi : m i = some v) :
    t.get? k = .ok (some v) := by
  rw [h.get, hD.ordinal_eq hk, hi]

namespace Walk

variable {κ ν : Type} {D : Domain κ} {a : Access} {t : Table D ν} {m : Nat → Option ν}
  {js : List Nat} {x : Nat} {w : Walk a}

theorem Spans.lt_count (h : w.Spans D (fun i => (m i).isSome) js x) {i : Nat} (hi : i ∈ js) : i < D.count := by
  rw [← h.ordinals] at hi
  exact (mem_span.mp hi).2.1.trans_le h.back_le

/-- On a lawful domain a pull yields whatever is left at its end. -/
theorem pull_lawful (hD : D.Lawful) (h : t.Shows m) (hw : w.Spans D (fun i => (m i).isSome) js x) (e : End) :
    Ends ((ends t).pull e) w (Pulls D m e js x w) (fun _ _ => False) := by
  apply (pull_ends h hw e).mono
  · exact fun _ _ hu => hu
  · rintro f u ⟨⟨i, hi, hKey⟩ | ⟨_, hCount⟩, _⟩
    · obtain ⟨k, hk⟩ := hD.exists_key (hw.lt_count hi)
      rw [Domain.keyAt_eq_ok.mpr hk] at hKey
      cases hKey
    · exact absurd hCount hD.count_lt.ne

/-- What a schedule of pulls on the ordinals `js` yields and what it leaves. -/
structure Covers (D : Domain κ) (m : Nat → Option ν) (js : List Nat) (x : Nat) (es : List End)
    (rs : List (Except Fault (Option (Entry κ ν)))) (left : List Nat) (u : Walk a) : Prop where
  noFault : ∀ r ∈ rs, ∃ o, r = .ok o
  found : ∀ e ∈ yielded rs, Finds D m e.ordinal e
  spans : u.Spans D (fun i => (m i).isSome) left x
  length : left.length = js.length - es.length
  ordinals : js = (yieldedAt .front es rs).map Entry.ordinal ++ left ++
    ((yieldedAt .back es rs).map Entry.ordinal).reverse

theorem run_covers (hD : D.Lawful) (h : t.Shows m) (hw : w.Spans D (fun i => (m i).isSome) js x)
    (es : List End) : ∃ left, Covers D m js x es ((ends t).run es w).1 left ((ends t).run es w).2 := by
  induction es generalizing js w with
  | nil => exact ⟨js, nofun, nofun, hw, rfl, (List.append_nil js).symm⟩
  | cons e es ih =>
    rw [TwoEnded.run]
    obtain ⟨r, u, hRun, hPull⟩ | ⟨_, _, _, hFalse⟩ := (pull_lawful hD h hw e).ran
    · rw [hRun]
      obtain ⟨rfl, rfl, rfl⟩ | ⟨i, rest, found, hTakes, rfl, hFinds, hu⟩ := hPull
      · obtain ⟨left, hNoFault, hFound, hLeft, hLength, hRest⟩ := ih hw
        refine ⟨left, ?_, hFound, hLeft, ?_, ?_⟩
        · intro r hr
          obtain rfl | hr := List.mem_cons.mp hr
          · exact ⟨none, rfl⟩
          · exact hNoFault r hr
        · rw [hLength, List.length_nil, Nat.zero_sub, Nat.zero_sub]
        · rw [hRest]
          cases e <;> rfl
      · obtain ⟨left, hNoFault, hFound, hLeft, hLength, hRest⟩ := ih hu
        obtain ⟨rfl, hKey, hValue⟩ := hFinds
        refine ⟨left, ?_, ?_, hLeft, ?_, ?_⟩
        · intro r hr
          obtain rfl | hr := List.mem_cons.mp hr
          · exact ⟨some found, rfl⟩
          · exact hNoFault r hr
        · intro e' he'
          obtain rfl | he' := List.mem_cons.mp he'
          · exact ⟨rfl, hKey, hValue⟩
          · exact hFound e' he'
        · rw [hLength, hTakes.perm.length_eq, List.length_cons, List.length_cons, Nat.add_sub_add_right]
        · cases e with
          | front =>
            rw [show js = found.ordinal :: rest from hTakes, hRest]
            rfl
          | back =>
            rw [show js = rest ++ [found.ordinal] from hTakes, hRest, List.append_assoc _ _ [found.ordinal],
              ← List.reverse_cons]
            rfl
    · cases hFalse

section Covers

variable {es : List End} {rs : List (Except Fault (Option (Entry κ ν)))} {left : List Nat} {u : Walk a}

theorem Covers.perm (h : Covers D m js x es rs left u) (hLength : rs.length = es.length) :
    js.Perm ((yielded rs).map Entry.ordinal ++ left) := by
  have hYielded := (perm_yielded hLength).map Entry.ordinal
  rw [List.map_append] at hYielded
  calc
    js = (yieldedAt .front es rs).map Entry.ordinal ++ left ++
        ((yieldedAt .back es rs).map Entry.ordinal).reverse := h.ordinals
    List.Perm _ ((yieldedAt .front es rs).map Entry.ordinal ++ left ++
        (yieldedAt .back es rs).map Entry.ordinal) := (List.reverse_perm _).append_left _
    List.Perm _ ((yieldedAt .front es rs).map Entry.ordinal ++
        ((yieldedAt .back es rs).map Entry.ordinal ++ left)) := by
      rw [List.append_assoc]
      exact List.perm_append_comm.append_left _
    List.Perm _ ((yielded rs).map Entry.ordinal ++ left) := by
      rw [← List.append_assoc]
      exact hYielded.symm.append_right left

theorem Covers.front_ascending (h : Covers D m js x es rs left u) (hjs : js.Pairwise (· < ·)) :
    ((yieldedAt .front es rs).map Entry.ordinal).Pairwise (· < ·) := by
  rw [h.ordinals, List.append_assoc] at hjs
  exact (List.pairwise_append.mp hjs).1

theorem Covers.back_descending (h : Covers D m js x es rs left u) (hjs : js.Pairwise (· < ·)) :
    ((yieldedAt .back es rs).map Entry.ordinal).Pairwise (· > ·) := by
  rw [h.ordinals] at hjs
  exact List.pairwise_reverse.mp (List.pairwise_append.mp hjs).2.1

theorem Covers.nodup (h : Covers D m js x es rs left u) (hLength : rs.length = es.length) (hjs : js.Nodup) :
    ((yielded rs).map Entry.ordinal ++ left).Nodup := (h.perm hLength).nodup_iff.mp hjs

theorem Covers.mem_left (h : Covers D m js x es rs left u) (hLength : rs.length = es.length) (hjs : js.Nodup)
    {i : Nat} : i ∈ left ↔ i ∈ js ∧ i ∉ (yielded rs).map Entry.ordinal := by
  have hDisjoint := List.disjoint_of_nodup_append (h.nodup hLength hjs)
  rw [(h.perm hLength).mem_iff, List.mem_append]
  constructor
  · exact fun hi => ⟨.inr hi, fun hYielded => hDisjoint hYielded hi⟩
  · rintro ⟨hYielded | hi, hNot⟩
    · exact absurd hYielded hNot
    · exact hi

theorem run_exhausted (hD : D.Lawful) (h : t.Shows m) (hw : w.Spans D (fun i => (m i).isSome) [] x)
    (es : List End) : ∀ r ∈ ((ends t).run es w).1, r = .ok none := by
  obtain ⟨left, hCovers⟩ := run_covers hD h hw es
  have hNil := hCovers.perm (TwoEnded.length_run es w)
  have hYielded : yielded ((ends t).run es w).1 = [] := by
    have hEmpty := List.append_eq_nil_iff.mp hNil.nil_eq.symm
    exact List.map_eq_nil_iff.mp hEmpty.1
  intro r hr
  obtain ⟨o, rfl⟩ := hCovers.noFault r hr
  cases o with
  | none => rfl
  | some e =>
    have hMem := mem_yielded.mpr hr
    rw [hYielded] at hMem
    cases hMem

end Covers

theorem mem_span_holds (hD : D.Lawful) (h : t.Sound) {i : Nat} :
    i ∈ span (fun i => (t.live i).isSome) 0 D.count ↔ t.holds i = true := by
  rw [← hD.capacity_eq]
  exact h.shows.mem_span

theorem length_span_holds (hD : D.Lawful) (h : t.Sound) :
    (span (fun i => (t.live i).isSome) 0 D.count).length = t.size := by
  rw [← hD.capacity_eq]
  exact h.shows.length_span

end Walk

end OrdinalMap
