import OrdinalMap.Bitmap.Stepwise
import OrdinalMap.Proofs.Bitmap.Scanning
import Mathlib.Order.Bounds.Defs
import Mathlib.Tactic.IntervalCases

/-! # The loops of the scans

Taken step by step, both scans come to an end without a trap and with the member that
they look for. What the loops pass over are empty buckets: the upward one goes along
the list of those that are left, the downward one takes the last bucket off the list.
-/

namespace OrdinalMap

set_option autoImplicit false

namespace Stepwise

theorem word_of_lt {i : Nat} (h : i < indexBound) : word i = pure i := if_pos h

theorem minus_of_le {i j : Nat} (h : j ≤ i) : minus i j = pure (i - j) := if_pos h

theorem shiftLeft_of_lt (x : BitVec 8) {amount : Nat} (h : amount < 8) : shiftLeft x amount = pure (x <<< amount) :=
  if_pos h

theorem onesMask_zero {width : Nat} (h : width ≤ 8) : onesMask 0 width = pure (~~~(BitVec.allOnes 8 <<< width)) := by
  interval_cases width <;> rfl

end Stepwise

namespace Bitmap

open Stepwise

variable {n : Nat}

theorem bucket_of_lt (b : Bitmap n) {g : Nat} (h : g < bucketCount n) : b.bucket g = pure b.buckets[g] := dif_pos h

theorem take_buckets (b : Bitmap n) {g : Nat} (h : g < bucketCount n) :
    b.buckets.toList.take (g + 1) = b.buckets.toList.take g ++ [b.buckets[g]] := by
  rw [List.take_succ_eq_append_getElem (by simpa using h), Vector.getElem_toList]

/-- Every bit that a bucket has room for has a number in 64 bits. -/
theorem last_lt_indexBound (hn : n < indexBound) {g : Nat} (hg : g < bucketCount n) : g * 8 + 7 < indexBound := by
  simp only [bucketCount, indexBound] at hn hg ⊢
  omega

theorem stepUp_found (hn : n < indexBound) (b : Bitmap n) {g : Nat} (hg : g < bucketCount n) {x : BitVec 8}
    (hx : x ≠ 0) : b.stepUp ⟨g, x⟩ = pure (.inr ((some (8 * g + x.ctz.toNat)).filter (· < n))) := by
  have hLast := last_lt_indexBound hn hg
  have hPlace := ctz_lt hx
  rw [stepUp, if_pos hx, word_of_lt (by omega), pure_bind, word_of_lt (by omega), pure_bind, Nat.mul_comm g]
  simp [Option.filter_some]

theorem stepUp_zero (hn : n < indexBound) (b : Bitmap n) {g : Nat} (hg : g < bucketCount n) :
    b.stepUp ⟨g, 0⟩ =
      if h : g + 1 < bucketCount n then pure (.inl ⟨g + 1, b.buckets[g + 1]⟩) else pure (.inr none) := by
  have hLast := last_lt_indexBound hn hg
  rw [stepUp, if_neg (not_not_intro rfl), word_of_lt (by omega), pure_bind]
  split
  · rw [dif_neg (by omega)]
  · rename_i h
    rw [bucket_of_lt b (by omega), pure_bind, dif_pos (by omega)]

/-- There are rounds enough as long as there is one for each bucket that is left. -/
theorem loop_stepUp (hn : n < indexBound) (b : Bitmap n) {g limit : Nat} (hg : g < bucketCount n)
    (hLimit : bucketCount n ≤ g + limit) (x : BitVec 8) :
    loop b.stepUp limit ⟨g, x⟩ = pure ((lowest g (x :: b.buckets.toList.drop (g + 1))).filter (· < n)) := by
  induction limit generalizing g x with
  | zero => omega
  | succ limit ih =>
    rw [loop, lowest]
    split
    · subst x
      rw [stepUp_zero hn b hg]
      split
      · rename_i hNext
        rw [pure_bind, b.drop_buckets hNext]
        exact ih hNext (by omega) _
      · have hDrop : b.buckets.toList.drop (g + 1) = [] := by
          rw [List.drop_eq_nil_iff, Vector.length_toList]
          omega
        rw [hDrop]
        rfl
    · rw [stepUp_found hn b hg ‹_›]
      rfl

theorem scanUp_eq (hn : n < indexBound) (b : Bitmap n) (start : Nat) : b.scanUp start = pure (b.next? start) := by
  rw [scanUp, next?]
  split
  · rw [if_neg (by omega)]
  · have hg : start / 8 < bucketCount n := bucket_lt (by omega)
    rw [if_pos (by omega), b.drop_buckets hg, b.bucket_of_lt hg, pure_bind,
      shiftLeft_of_lt _ (Nat.mod_lt _ (by decide)), pure_bind, loop_stepUp hn b hg (Nat.le_add_left ..)]
    rfl

theorem highest_append (xs : List (BitVec 8)) (x : BitVec 8) (g : Nat) :
    highest g (xs ++ [x]) = if x = 0 then highest g xs else some (8 * (g + xs.length) + 7 - x.clz.toNat) := by
  induction xs generalizing g with
  | nil => simp [highest]
  | cons y ys ih =>
    rw [List.cons_append, highest, ih, highest]
    split
    · rfl
    · rw [Option.some_or, List.length_cons, Nat.add_assoc g, Nat.add_comm 1]

theorem highest_take (b : Bitmap n) {g : Nat} (hg : g < bucketCount n) (x : BitVec 8) :
    highest 0 (b.buckets.toList.take g ++ [x]) =
      if x = 0 then highest 0 (b.buckets.toList.take g) else some (8 * g + 7 - x.clz.toNat) := by
  rw [highest_append, b.length_take_buckets hg, Nat.zero_add]

theorem stepDown_found (hn : n < indexBound) (b : Bitmap n) {g : Nat} (hg : g < bucketCount n) {x : BitVec 8}
    (hx : x ≠ 0) : b.stepDown ⟨g, x⟩ = pure (.inr (some (8 * g + 7 - x.clz.toNat))) := by
  have hLast := last_lt_indexBound hn hg
  have hPlace := clz_lt hx
  rw [stepDown, if_pos hx, word_of_lt (by omega), pure_bind, word_of_lt (by omega), pure_bind,
    minus_of_le (by omega), pure_bind, Nat.mul_comm g]

theorem stepDown_zero (b : Bitmap n) {g : Nat} (hg : g < bucketCount n) :
    b.stepDown ⟨g + 1, 0⟩ = pure (.inl ⟨g, b.buckets[g]⟩) := by
  rw [stepDown, if_neg (not_not_intro rfl), if_neg (Nat.succ_ne_zero g), minus_of_le (by omega), pure_bind,
    Nat.add_sub_cancel, b.bucket_of_lt hg, pure_bind]

theorem loop_stepDown (hn : n < indexBound) (b : Bitmap n) {g limit : Nat} (hg : g < bucketCount n)
    (hLimit : g < limit) (x : BitVec 8) :
    loop b.stepDown limit ⟨g, x⟩ = pure (highest 0 (b.buckets.toList.take g ++ [x])) := by
  induction limit generalizing g x with
  | zero => omega
  | succ limit ih =>
    rw [loop, b.highest_take hg]
    split
    · subst x
      cases g with
      | zero => rfl
      | succ g =>
        have hBefore : g < bucketCount n := by omega
        rw [stepDown_zero b hBefore, pure_bind, b.take_buckets hBefore]
        exact ih hBefore (by omega) _
    · rw [stepDown_found hn b hg ‹_›]
      rfl

theorem scanDown_eq (hn : n < indexBound) (b : Bitmap n) (before : Nat) :
    b.scanDown before = pure (b.prev? before) := by
  rw [scanDown, prev?]
  split
  · rename_i hZero
    rw [hZero]
  · obtain ⟨last, hMin⟩ := Nat.exists_eq_succ_of_ne_zero ‹min before n ≠ 0›
    have hg : last / 8 < bucketCount n := bucket_lt (by omega)
    rw [hMin, minus_of_le (by omega), pure_bind, Nat.succ_sub_one, b.bucket_of_lt hg, pure_bind,
      word_of_lt (by omega), pure_bind, onesMask_zero (by omega), pure_bind, loop_stepDown hn b hg hg]
    simp only [b.drop_buckets hg, maskBelow]

theorem next?_isLeast {b : Bitmap n} {start i : Nat} (h : b.next? start = some i) :
    IsLeast {j | b.contains j = true ∧ start ≤ j} i := by
  obtain ⟨hStart, hMember, hBelow⟩ := next?_eq_some h
  refine ⟨⟨hMember, hStart⟩, ?_⟩
  rintro j ⟨hj, hStartj⟩
  by_contra hij
  simp [hBelow j hStartj (by omega)] at hj

theorem prev?_isGreatest {b : Bitmap n} {before i : Nat} (h : b.prev? before = some i) :
    IsGreatest {j | b.contains j = true ∧ j < before} i := by
  obtain ⟨hBefore, hMember, hAbove⟩ := prev?_eq_some h
  refine ⟨⟨hMember, hBefore⟩, ?_⟩
  rintro j ⟨hj, hjBefore⟩
  by_contra hij
  simp [hAbove j (by omega) hjBefore] at hj

theorem next?_eq_none_iff {b : Bitmap n} {start : Nat} :
    b.next? start = none ↔ ∀ j, b.contains j = true → j < start := by
  constructor
  · intro hNone j hj
    by_contra hStart
    simp [next?_eq_none hNone (Nat.le_of_not_lt hStart)] at hj
  · intro hBelow
    cases hNext : b.next? start with
    | none => rfl
    | some i =>
      obtain ⟨hStart, hMember, -⟩ := next?_eq_some hNext
      exact absurd (hBelow i hMember) (by omega)

theorem prev?_eq_none_iff {b : Bitmap n} {before : Nat} :
    b.prev? before = none ↔ ∀ j, b.contains j = true → before ≤ j := by
  constructor
  · intro hNone j hj
    by_contra hBefore
    simp [prev?_eq_none hNone (Nat.lt_of_not_le hBefore)] at hj
  · intro hAbove
    cases hPrev : b.prev? before with
    | none => rfl
    | some i =>
      obtain ⟨hBefore, hMember, -⟩ := prev?_eq_some hPrev
      exact absurd (hAbove i hMember) (by omega)

theorem next?_eq_some_iff {b : Bitmap n} {start i : Nat} :
    b.next? start = some i ↔ IsLeast {j | b.contains j = true ∧ start ≤ j} i := by
  refine ⟨next?_isLeast, fun hi => ?_⟩
  cases hNext : b.next? start with
  | some j => rw [hi.unique (next?_isLeast hNext)]
  | none => exact absurd (next?_eq_none_iff.mp hNext i hi.1.1) (Nat.not_lt.mpr hi.1.2)

theorem prev?_eq_some_iff {b : Bitmap n} {before i : Nat} :
    b.prev? before = some i ↔ IsGreatest {j | b.contains j = true ∧ j < before} i := by
  refine ⟨prev?_isGreatest, fun hi => ?_⟩
  cases hPrev : b.prev? before with
  | some j => rw [hi.unique (prev?_isGreatest hPrev)]
  | none => exact absurd (prev?_eq_none_iff.mp hPrev i hi.1.1) (Nat.not_le.mpr hi.1.2)

/-- Each scan comes to an end and traps nowhere. Upwards it finds the least member from
its start on, downwards the greatest member below its bound, and nothing only if there
is none. Starts and bounds may be any numbers, the capacity and greater ones included. -/
theorem scans_exact (hn : n < indexBound) (b : Bitmap n) (i : Nat) :
    (b.scanUp i = .ok (b.next? i) ∧ b.scanDown i = .ok (b.prev? i)) ∧
    (∀ j, b.next? i = some j ↔ IsLeast {k | b.contains k = true ∧ i ≤ k} j) ∧
    (b.next? i = none ↔ ∀ k, b.contains k = true → k < i) ∧
    (∀ j, b.prev? i = some j ↔ IsGreatest {k | b.contains k = true ∧ k < i} j) ∧
    (b.prev? i = none ↔ ∀ k, b.contains k = true → i ≤ k) ∧
    ∀ j, b.next? i = some j ∨ b.prev? i = some j → j < n := by
  refine ⟨⟨scanUp_eq hn b i, scanDown_eq hn b i⟩, fun j => next?_eq_some_iff, next?_eq_none_iff,
    fun j => prev?_eq_some_iff, prev?_eq_none_iff, ?_⟩
  rintro j (hNext | hPrev)
  · exact lt_of_contains (next?_eq_some hNext).2.1
  · exact lt_of_contains (prev?_eq_some hPrev).2.1

/-- Member 17 is in the last bucket, which is not full. -/
theorem scans_exact_twenty :
    let b : Bitmap 20 := ⟨#v[0b00001000, 0, 0b00000010]⟩
    20 < indexBound ∧ b.scanUp 4 = .ok (some 17) ∧ b.scanDown 17 = .ok (some 3) ∧ b.scanUp 20 = .ok none ∧
      b.scanDown (indexBound - 1) = .ok (some 17) := by
  intro b
  have hn : 20 < indexBound := by decide
  obtain ⟨⟨hUp, -⟩, -⟩ := scans_exact hn b 4
  obtain ⟨⟨-, hDown⟩, -⟩ := scans_exact hn b 17
  obtain ⟨⟨hEnd, -⟩, -⟩ := scans_exact hn b 20
  obtain ⟨⟨-, hLast⟩, -⟩ := scans_exact hn b (indexBound - 1)
  rw [hUp, hDown, hEnd, hLast]
  decide

end Bitmap

end OrdinalMap
