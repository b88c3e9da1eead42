import OrdinalMap.Skip
import OrdinalMap.Proofs.Bitmap.Scanning
import Mathlib.Order.Bounds.Basic

/-! # What the scans of a selection find

The linear scans find the first match from an index on and the last match below
one. Both are determined by the matches alone, so the scans of a bitmap, which go
by buckets, find the same wherever they start and stop.
-/

namespace OrdinalMap

set_option autoImplicit false

/-- `j` is the first index from `start` on that has the property, or it is
`stop` and no index before `stop` has. -/
structure IsNext (p : Nat → Bool) (start stop j : Nat) : Prop where
  start_le : start ≤ j
  le_stop : j ≤ stop
  skipped : ∀ i, start ≤ i → i < j → p i = false
  reached : j < stop → p j = true

theorem IsNext.unique {p : Nat → Bool} {start stop j k : Nat} (hj : IsNext p start stop j)
    (hk : IsNext p start stop k) : j = k := by
  have hle : ∀ {j k : Nat}, IsNext p start stop j → IsNext p start stop k → j ≤ k := by
    intro j k hj hk
    by_contra hlt
    have hkj := Nat.lt_of_not_le hlt
    have hDead := hj.skipped k hk.start_le hkj
    rw [hk.reached (hkj.trans_le hj.le_stop)] at hDead
    cases hDead
  exact le_antisymm (hle hj hk) (hle hk hj)

theorem isNext_stop (p : Nat → Bool) (stop : Nat) : IsNext p stop stop stop where
  start_le := le_rfl
  le_stop := le_rfl
  skipped _ hi hlt := absurd hi (Nat.not_le.mpr hlt)
  reached hlt := absurd hlt (lt_irrefl stop)

theorem IsNext.isLeast {p : Nat → Bool} {start stop j : Nat} (h : IsNext p start stop j) :
    IsLeast {i | i < stop ∧ p i = true ∧ start ≤ i} j ∨
      {i | i < stop ∧ p i = true ∧ start ≤ i} = ∅ ∧ j = stop := by
  obtain hlt | hEq := Nat.lt_or_eq_of_le h.le_stop
  · refine .inl ⟨⟨hlt, h.reached hlt, h.start_le⟩, ?_⟩
    rintro i ⟨-, hMatch, hi⟩
    by_contra hij
    simp [h.skipped i hi (Nat.lt_of_not_le hij)] at hMatch
  · refine .inr ⟨Set.eq_empty_iff_forall_notMem.mpr ?_, hEq⟩
    rintro i ⟨hlt, hMatch, hi⟩
    simp [h.skipped i hi (hEq ▸ hlt)] at hMatch

/-- The last index below `before` that has the property, if any has. -/
def IsPrev (p : Nat → Bool) (before : Nat) : Option Nat → Prop
  | some k => k < before ∧ p k = true ∧ ∀ i, k < i → i < before → p i = false
  | none => ∀ i < before, p i = false

theorem IsPrev.unique {p : Nat → Bool} {before : Nat} {j? k? : Option Nat} (hj : IsPrev p before j?)
    (hk : IsPrev p before k?) : j? = k? := by
  cases j? with
  | none =>
    cases k? with
    | none => rfl
    | some k =>
      obtain ⟨hk, hMatch, _⟩ := hk
      simp [hj k hk] at hMatch
  | some j =>
    obtain ⟨hj, hMatch, hAbove⟩ := hj
    cases k? with
    | none => simp [hk j hj] at hMatch
    | some k =>
      obtain ⟨hk, hMatch', hAbove'⟩ := hk
      obtain hlt | hEq | hlt := Nat.lt_trichotomy j k
      · simp [hAbove k hlt hk] at hMatch'
      · rw [hEq]
      · simp [hAbove' j hlt hj] at hMatch

section Before

variable {p : Nat → Bool} {before x : Nat} {k? : Option Nat}

theorem IsPrev.lt_or_eq (h : IsPrev p before k?) (x : Nat) : k?.getD x = x ∨ k?.getD x < before := by
  cases k? with
  | some k => exact .inr h.1
  | none => exact .inl rfl

theorem IsPrev.skipped (h : IsPrev p before k?) (hx : before ≤ x) {i : Nat} (hi : i < before)
    (hAbove : k?.getD x = x ∨ k?.getD x < i) : p i = false := by
  cases k? with
  | some k =>
    obtain ⟨hk, -, hSkipped⟩ := h
    obtain hEq | hki := hAbove
    · exact absurd hk (Nat.not_lt.mpr (hx.trans_eq hEq.symm))
    · exact hSkipped i hki hi
  | none => exact h i hi

end Before

theorem IsPrev.isGreatest {p : Nat → Bool} {before : Nat} {k? : Option Nat} (h : IsPrev p before k?) (x : Nat) :
    IsGreatest {i | i < before ∧ p i = true} (k?.getD x) ∨
      {i | i < before ∧ p i = true} = ∅ ∧ k?.getD x = x := by
  cases k? with
  | some k =>
    obtain ⟨hk, hMatch, hAbove⟩ := h
    refine .inl ⟨⟨hk, hMatch⟩, ?_⟩
    rintro i ⟨hi, hMatch'⟩
    by_contra hki
    simp [hAbove i (Nat.lt_of_not_le hki) hi] at hMatch'
  | none =>
    refine .inr ⟨Set.eq_empty_iff_forall_notMem.mpr ?_, rfl⟩
    rintro i ⟨hi, hMatch⟩
    simp [h i hi] at hMatch

theorem Bitmap.selection_next {n : Nat} (b : Bitmap n) {start stop : Nat} (h : start ≤ stop) :
    IsNext b.contains start stop (b.selection.next start stop) := by
  cases hNext : b.next? start with
  | none =>
    have hStop : b.selection.next start stop = stop := by simp [Bitmap.selection, hNext]
    rw [hStop]
    exact ⟨h, le_rfl, fun i hi _ => next?_eq_none hNext hi, fun hlt => absurd hlt (lt_irrefl stop)⟩
  | some j =>
    obtain ⟨hj, hMember, hSkipped⟩ := next?_eq_some hNext
    obtain hlt | hge := Nat.lt_or_ge j stop
    · have hStop : b.selection.next start stop = j := by simp [Bitmap.selection, hNext, Option.filter, hlt]
      rw [hStop]
      exact ⟨hj, hlt.le, hSkipped, fun _ => hMember⟩
    · have hStop : b.selection.next start stop = stop := by
        simp [Bitmap.selection, hNext, Option.filter, Nat.not_lt.mpr hge]
      rw [hStop]
      exact ⟨h, le_rfl, fun i hi hlt => hSkipped i hi (hlt.trans_le hge),
        fun hlt => absurd hlt (lt_irrefl stop)⟩

theorem Bitmap.selection_next_of_le {n : Nat} (b : Bitmap n) {start stop : Nat} (h : stop ≤ start) :
    b.selection.next start stop = stop := by
  cases hNext : b.next? start with
  | none => simp [selection, hNext]
  | some j =>
    have hj := h.trans (next?_eq_some hNext).1
    simp [selection, hNext, Option.filter, Nat.not_lt.mpr hj]

theorem Bitmap.selection_prev {n : Nat} (b : Bitmap n) (before : Nat) :
    IsPrev b.contains before (b.selection.prev? before) := by
  have h := b.prev?_spec before
  revert h
  rw [show b.selection.prev? before = b.prev? before from rfl]
  cases b.prev? before <;> exact id

namespace Selection

variable {test : Nat → Bool}

theorem scanUp_next (test : Nat → Bool) (count start : Nat) :
    IsNext test start (start + count) ((scanUp test count start).getD (start + count)) := by
  induction count generalizing start with
  | zero => exact isNext_stop test start
  | succ count ih =>
    rw [scanUp]
    split
    · rename_i hMatch
      exact ⟨le_rfl, Nat.le_add_right _ _, fun i hi hlt => absurd hi (Nat.not_le.mpr hlt), fun _ => hMatch⟩
    · rename_i hNone
      have hRest := ih (start + 1)
      rw [show start + 1 + count = start + (count + 1) by omega] at hRest
      refine ⟨by have := hRest.start_le; omega, hRest.le_stop, ?_, hRest.reached⟩
      intro i hi hlt
      obtain rfl | hlt' := Nat.eq_or_lt_of_le hi
      · simpa using hNone
      · exact hRest.skipped i hlt' hlt

theorem linear_next {start stop : Nat} (h : start ≤ stop) :
    IsNext test start stop ((linear test).next start stop) := by
  obtain ⟨count, rfl⟩ := Nat.exists_eq_add_of_le h
  simpa [linear] using scanUp_next test count start

theorem linear_next_of_le {start stop : Nat} (h : stop ≤ start) : (linear test).next start stop = stop := by
  simp [linear, Nat.sub_eq_zero_of_le h, scanUp]

theorem linear_prev (before : Nat) : IsPrev test before ((linear test).prev? before) := by
  change IsPrev test before (scanDown test before)
  induction before with
  | zero => exact fun i hi => absurd hi (Nat.not_lt_zero i)
  | succ i ih =>
    rw [scanDown]
    split
    · rename_i hMatch
      exact ⟨Nat.lt_succ_self i, hMatch, fun j hj hlt => absurd hj (by omega)⟩
    · rename_i hNone
      have hLast : ∀ j, j < i + 1 → j < i ∨ test j = false := by
        intro j hj
        obtain hlt | rfl := Nat.lt_succ_iff_lt_or_eq.mp hj
        · exact .inl hlt
        · exact .inr (by simpa using hNone)
      revert ih
      cases scanDown test i with
      | none => exact fun ih j hj => (hLast j hj).elim (ih j) id
      | some k =>
        rintro ⟨hk, hMatch, hAbove⟩
        exact ⟨hk.trans (Nat.lt_succ_self i), hMatch, fun j hkj hj => (hLast j hj).elim (hAbove j hkj) id⟩

/-- A selection whose own scans agree with the linear ones on all words. -/
structure ScansLinearly (sel : Selection) : Prop where
  next_eq : ∀ start stop, start < indexBound → stop < indexBound →
    sel.next start stop = (linear sel.test).next start stop
  prev_eq : ∀ before, before < indexBound → sel.prev? before = (linear sel.test).prev? before

theorem scansLinearly_linear (test : Nat → Bool) : (linear test).ScansLinearly where
  next_eq _ _ _ _ := rfl
  prev_eq _ _ := rfl

variable {sel : Selection}

theorem ScansLinearly.next (h : sel.ScansLinearly) {start stop : Nat} (hStop : stop < indexBound)
    (hStart : start ≤ stop) : IsNext sel.test start stop (sel.next start stop) := by
  rw [h.next_eq start stop (hStart.trans_lt hStop) hStop]
  exact linear_next hStart

theorem ScansLinearly.prev (h : sel.ScansLinearly) {before : Nat} (hBefore : before < indexBound) :
    IsPrev sel.test before (sel.prev? before) := by
  rw [h.prev_eq before hBefore]
  exact linear_prev before

end Selection

/-- The scans of a bitmap by buckets are the linear scans for its members. -/
theorem Bitmap.selection_eq_linear {n : Nat} (b : Bitmap n) : b.selection = Selection.linear b.contains := by
  have hNext : b.selection.next = (Selection.linear b.contains).next := by
    funext start stop
    obtain h | h := Nat.le_total start stop
    · exact (b.selection_next h).unique (Selection.linear_next h)
    · rw [b.selection_next_of_le h, Selection.linear_next_of_le h]
  have hPrev : b.selection.prev? = (Selection.linear b.contains).prev? := by
    funext before
    exact (b.selection_prev before).unique (Selection.linear_prev before)
  calc
    b.selection = ⟨b.contains, b.selection.next, b.selection.prev?⟩ := rfl
    _ = Selection.linear b.contains := by
      rw [hNext, hPrev]
      rfl

theorem Bitmap.selection_scansLinearly {n : Nat} (b : Bitmap n) : b.selection.ScansLinearly := by
  rw [b.selection_eq_linear]
  exact Selection.scansLinearly_linear b.contains

end OrdinalMap
