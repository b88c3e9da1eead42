import OrdinalMap.Bitmap.Scan
import OrdinalMap.Proofs.Bitmap.Counting
import Mathlib.Data.List.Range

/-! # What the scans of a bitmap find

The upward scan finds the least member from its start on, the downward one the
greatest member below its bound; both are told from the bits of the buckets
that they look at. Walking upwards lists the members in ascending order.
-/

namespace OrdinalMap.Bitmap

set_option autoImplicit false

variable {n : Nat}

def IsFirst (p : Nat → Bool) (j : Nat) : Prop := p j = true ∧ ∀ k < j, p k = false

def IsLast (p : Nat → Bool) (j : Nat) : Prop := p j = true ∧ ∀ k, j < k → p k = false

theorem bitAt_nil (j : Nat) : bitAt [] j = false := by simp [bitAt]

theorem lt_or_add (j : Nat) : j < 8 ∨ ∃ k, j = 8 + k := by
  obtain h | h := Nat.lt_or_ge j 8
  · exact .inl h
  · exact .inr ⟨j - 8, by omega⟩

theorem ctz_lt {x : BitVec 8} (h : x ≠ 0) : x.ctz.toNat < 8 := BitVec.ctz_lt_iff_ne_zero.mpr h

theorem clz_lt {x : BitVec 8} (h : x ≠ 0) : x.clz.toNat < 8 := BitVec.clz_lt_iff_ne_zero.mpr h

theorem getLsbD_above_clz (x : BitVec 8) {j : Nat} (h : 7 - x.clz.toNat < j) : x.getLsbD j = false := by
  apply Nat.testBit_lt_two_pow
  exact Nat.lt_of_lt_of_le BitVec.toNat_lt_two_pow_sub_clz
    (Nat.pow_le_pow_right (by decide) (by omega))

theorem lowest_spec (xs : List (BitVec 8)) (g : Nat) :
    match lowest g xs with
    | some i => ∃ j, i = 8 * g + j ∧ IsFirst (bitAt xs) j
    | none => ∀ j, bitAt xs j = false := by
  induction xs generalizing g with
  | nil => exact bitAt_nil
  | cons x xs ih =>
    rw [lowest]
    by_cases hx : x = 0
    · have hZero : ∀ j < 8, bitAt (x :: xs) j = false := by
        intro j hj
        rw [bitAt_cons_of_lt x xs hj, hx]
        exact BitVec.getLsbD_zero
      rw [if_pos hx]
      specialize ih (g + 1)
      revert ih
      cases lowest (g + 1) xs with
      | some i =>
        rintro ⟨j, hij, hj, hBelow⟩
        refine ⟨8 + j, by omega, by rw [bitAt_cons_add, hj], ?_⟩
        intro k hk
        obtain hk8 | ⟨l, rfl⟩ := lt_or_add k
        · exact hZero k hk8
        · rw [bitAt_cons_add, hBelow l (by omega)]
      | none =>
        intro hNone j
        obtain hj8 | ⟨l, rfl⟩ := lt_or_add j
        · exact hZero j hj8
        · rw [bitAt_cons_add, hNone l]
    · rw [if_neg hx]
      refine ⟨x.ctz.toNat, rfl, ?_, ?_⟩
      · rw [bitAt_cons_of_lt x xs (ctz_lt hx)]
        exact BitVec.getLsbD_true_ctz_of_ne_zero hx
      · intro k hk
        rw [bitAt_cons_of_lt x xs (Nat.lt_trans hk (ctz_lt hx))]
        exact BitVec.getLsbD_false_of_lt_ctz hk

theorem highest_spec (xs : List (BitVec 8)) (g : Nat) :
    match highest g xs with
    | some i => ∃ j, i = 8 * g + j ∧ IsLast (bitAt xs) j
    | none => ∀ j, bitAt xs j = false := by
  induction xs generalizing g with
  | nil => exact bitAt_nil
  | cons x xs ih =>
    rw [highest]
    specialize ih (g + 1)
    revert ih
    cases highest (g + 1) xs with
    | some i =>
      rintro ⟨j, hij, hj, hAbove⟩
      refine ⟨8 + j, by omega, by rw [bitAt_cons_add, hj], ?_⟩
      intro k hk
      obtain ⟨l, rfl⟩ : ∃ l, k = 8 + l := ⟨k - 8, by omega⟩
      rw [bitAt_cons_add, hAbove l (by omega)]
    | none =>
      intro hNone
      by_cases hx : x = 0
      · simp only [hx, ↓reduceIte, Option.or_none]
        intro j
        obtain hj8 | ⟨l, rfl⟩ := lt_or_add j
        · rw [bitAt_cons_of_lt _ xs hj8]
          exact BitVec.getLsbD_zero
        · rw [bitAt_cons_add, hNone l]
      · simp only [hx, ↓reduceIte, Option.none_or]
        have hc := clz_lt hx
        refine ⟨7 - x.clz.toNat, by omega, ?_, ?_⟩
        · rw [bitAt_cons_of_lt x xs (by omega)]
          exact BitVec.getLsbD_true_clz_of_ne_zero (by decide) hx
        · intro k hk
          obtain hk8 | ⟨l, rfl⟩ := lt_or_add k
          · rw [bitAt_cons_of_lt x xs hk8]
            exact getLsbD_above_clz x hk
          · rw [bitAt_cons_add, hNone l]

theorem bitAt_drop (xs : List (BitVec 8)) (g j : Nat) : bitAt (xs.drop g) j = bitAt xs (8 * g + j) := by
  rw [bitAt, bitAt, Nat.mul_add_mod, Nat.mul_add_div (by decide)]
  simp [List.getD_eq_getElem?_getD]

theorem getLsbD_mask (r : Nat) {j : Nat} (hj : j < 8) :
    (BitVec.allOnes 8 <<< r).getLsbD j = decide (r ≤ j) := by
  rw [BitVec.getLsbD_shiftLeft, BitVec.getLsbD_allOnes, decide_eq_true hj, Bool.true_and]
  by_cases h : r ≤ j
  · simp [h, Nat.not_lt.mpr h, show j - r < 8 by omega]
  · simp [h, Nat.lt_of_not_le h]

theorem bitAt_maskFrom {r : Nat} (hr : r < 8) (x : BitVec 8) (xs : List (BitVec 8)) (j : Nat) :
    bitAt (maskFrom r x :: xs) j = (decide (r ≤ j) && bitAt (x :: xs) j) := by
  obtain hj | ⟨k, rfl⟩ := lt_or_add j
  · rw [bitAt_cons_of_lt _ xs hj, bitAt_cons_of_lt _ xs hj]
    rw [maskFrom, BitVec.getLsbD_and, getLsbD_mask r hj, Bool.and_comm]
  · rw [bitAt_cons_add, bitAt_cons_add]
    simp [show r ≤ 8 + k by omega]

theorem bitAt_maskBelow (r : Nat) (x : BitVec 8) (j : Nat) :
    bitAt [maskBelow r x] j = (decide (j < r) && bitAt [x] j) := by
  obtain hj | ⟨k, rfl⟩ := lt_or_add j
  · rw [bitAt_cons_of_lt _ [] hj, bitAt_cons_of_lt _ [] hj]
    rw [maskBelow, BitVec.getLsbD_and, BitVec.getLsbD_not, getLsbD_mask r hj, Bool.and_comm]
    simp only [hj, decide_true, Bool.true_and, ← decide_not, Nat.not_le]
  · rw [bitAt_cons_add, bitAt_cons_add, bitAt_nil, Bool.and_false]

theorem bitAt_append {xs ys : List (BitVec 8)} (j : Nat) :
    bitAt (xs ++ ys) j = if j < 8 * xs.length then bitAt xs j else bitAt ys (j - 8 * xs.length) := by
  split
  · rename_i h
    have hd : j / 8 < xs.length := by omega
    simp [bitAt, List.getD_eq_getElem?_getD, List.getElem?_append_left hd]
  · rename_i h
    have hd : xs.length ≤ j / 8 := by omega
    have hq : (j - 8 * xs.length) / 8 = j / 8 - xs.length := by omega
    have hm : (j - 8 * xs.length) % 8 = j % 8 := by omega
    simp [bitAt, List.getD_eq_getElem?_getD, List.getElem?_append_right hd, hq, hm]

theorem drop_buckets (b : Bitmap n) {g : Nat} (h : g < bucketCount n) :
    b.buckets.toList.drop g = b.buckets[g] :: b.buckets.toList.drop (g + 1) := by
  rw [List.drop_eq_getElem_cons (by simpa using h), Vector.getElem_toList]

theorem length_take_buckets (b : Bitmap n) {g : Nat} (h : g < bucketCount n) :
    (b.buckets.toList.take g).length = g := by
  rw [List.length_take, Vector.length_toList, Nat.min_eq_left (Nat.le_of_lt h)]

theorem exists_drop (b : Bitmap n) {i : Nat} (h : i < n) :
    ∃ x xs, b.buckets.toList.drop (i / 8) = x :: xs :=
  ⟨_, _, b.drop_buckets (bucket_lt h)⟩

/-- The bits that an upward scan looks at are those from its start on. -/
theorem bitAt_scannedUp {b : Bitmap n} {start : Nat} {x : BitVec 8} {xs : List (BitVec 8)}
    (h : b.buckets.toList.drop (start / 8) = x :: xs) (j : Nat) :
    bitAt (maskFrom (start % 8) x :: xs) j = (decide (start % 8 ≤ j) && b.bit (8 * (start / 8) + j)) := by
  rw [bitAt_maskFrom (Nat.mod_lt _ (by decide)), ← h, bitAt_drop, bit]

/-- The bits that a downward scan looks at are those up to its first. -/
theorem bitAt_scannedDown {b : Bitmap n} {last : Nat} (hLast : last < n) {x : BitVec 8} {xs : List (BitVec 8)}
    (h : b.buckets.toList.drop (last / 8) = x :: xs) (j : Nat) :
    bitAt (b.buckets.toList.take (last / 8) ++ [maskBelow (last % 8 + 1) x]) j =
      (decide (j ≤ last) && b.bit j) := by
  have hLength := b.length_take_buckets (bucket_lt hLast)
  have hSplit : b.buckets.toList = b.buckets.toList.take (last / 8) ++ x :: xs := by
    rw [← h, List.take_append_drop]
  rw [bitAt_append, hLength, bit, hSplit, bitAt_append, List.take_append_of_le_length (by omega),
    List.take_of_length_le (by omega), hLength]
  split
  · simp [show j ≤ last by omega]
  · rw [bitAt_maskBelow]
    obtain hj | ⟨k, hk⟩ := lt_or_add (j - 8 * (last / 8))
    · rw [bitAt_cons_of_lt _ _ hj, bitAt_cons_of_lt _ _ hj]
      congr 2
      exact propext (by omega)
    · rw [hk, bitAt_cons_add, bitAt_nil, Bool.and_false]
      simp [show ¬ j ≤ last by omega]

theorem next?_spec (b : Bitmap n) (start : Nat) :
    match b.next? start with
    | some i => start ≤ i ∧ b.contains i = true ∧ ∀ j, start ≤ j → j < i → b.contains j = false
    | none => ∀ j, start ≤ j → b.contains j = false := by
  obtain hs | hs := Nat.lt_or_ge start n
  · obtain ⟨x, xs, hDrop⟩ := b.exists_drop hs
    have hBit := bitAt_scannedUp hDrop
    have h := lowest_spec (maskFrom (start % 8) x :: xs) (start / 8)
    rw [next?, if_pos hs, hDrop]
    revert h
    dsimp only
    cases lowest (start / 8) (maskFrom (start % 8) x :: xs) with
    | some i =>
      rintro ⟨j, rfl, hj, hBelow⟩
      rw [hBit, Bool.and_eq_true, decide_eq_true_eq] at hj
      have hNone : ∀ k, start ≤ k → k < 8 * (start / 8) + j → b.contains k = false := by
        intro k hk hkj
        have hk' := hBelow (k - 8 * (start / 8)) (by omega)
        rw [hBit, decide_eq_true (by omega), Bool.true_and,
          show 8 * (start / 8) + (k - 8 * (start / 8)) = k by omega] at hk'
        rw [contains_eq_bit, hk', Bool.and_false]
      by_cases hi : 8 * (start / 8) + j < n
      · rw [Option.filter_some, if_pos (decide_eq_true hi)]
        refine ⟨by omega, ?_, hNone⟩
        rw [contains_eq_bit, hj.2, decide_eq_true hi]
        rfl
      · rw [Option.filter_some, if_neg (by simpa using hi)]
        intro k hk
        obtain hkn | hkn := Nat.lt_or_ge k n
        · exact hNone k hk (by omega)
        · exact contains_of_le hkn
    | none =>
      intro hNone j hj
      have hj' := hNone (j - 8 * (start / 8))
      rw [hBit, decide_eq_true (by omega), Bool.true_and,
        show 8 * (start / 8) + (j - 8 * (start / 8)) = j by omega] at hj'
      rw [contains_eq_bit, hj', Bool.and_false]
  · rw [next?, if_neg (Nat.not_lt.mpr hs)]
    intro j hj
    exact contains_of_le (Nat.le_trans hs hj)

theorem prev?_spec (b : Bitmap n) (before : Nat) :
    match b.prev? before with
    | some i => i < before ∧ b.contains i = true ∧ ∀ j, i < j → j < before → b.contains j = false
    | none => ∀ j, j < before → b.contains j = false := by
  rw [prev?]
  cases hMin : min before n with
  | zero =>
    intro j hj
    exact contains_of_le (by omega)
  | succ last =>
    obtain ⟨x, xs, hDrop⟩ := b.exists_drop (i := last) (by omega)
    have hBit := bitAt_scannedDown (show last < n by omega) hDrop
    have h := highest_spec (b.buckets.toList.take (last / 8) ++ [maskBelow (last % 8 + 1) x]) 0
    dsimp only
    rw [hDrop]
    revert h
    dsimp only
    cases highest 0 (b.buckets.toList.take (last / 8) ++ [maskBelow (last % 8 + 1) x]) with
    | some i =>
      rintro ⟨j, hij, hj, hAbove⟩
      obtain rfl : i = j := by omega
      rw [hBit, Bool.and_eq_true, decide_eq_true_eq] at hj
      refine ⟨by omega, ?_, ?_⟩
      · rw [contains_eq_bit, hj.2, decide_eq_true (by omega)]
        rfl
      · intro k hik hk
        have hk' := hAbove k hik
        obtain hkn | hkn := Nat.lt_or_ge k n
        · rw [hBit, decide_eq_true (by omega), Bool.true_and] at hk'
          rw [contains_eq_bit, hk', Bool.and_false]
        · exact contains_of_le hkn
    | none =>
      intro hNone k hk
      obtain hkn | hkn := Nat.lt_or_ge k n
      · have hk' := hNone k
        rw [hBit, decide_eq_true (by omega), Bool.true_and] at hk'
        rw [contains_eq_bit, hk', Bool.and_false]
      · exact contains_of_le hkn

theorem next?_eq_some {b : Bitmap n} {start i : Nat} (h : b.next? start = some i) :
    start ≤ i ∧ b.contains i = true ∧ ∀ j, start ≤ j → j < i → b.contains j = false := by
  have hSpec := b.next?_spec start
  rw [h] at hSpec
  exact hSpec

theorem next?_eq_none {b : Bitmap n} {start : Nat} (h : b.next? start = none) {j : Nat} (hj : start ≤ j) :
    b.contains j = false := by
  have hSpec := b.next?_spec start
  rw [h] at hSpec
  exact hSpec j hj

theorem prev?_eq_some {b : Bitmap n} {before i : Nat} (h : b.prev? before = some i) :
    i < before ∧ b.contains i = true ∧ ∀ j, i < j → j < before → b.contains j = false := by
  have hSpec := b.prev?_spec before
  rw [h] at hSpec
  exact hSpec

theorem prev?_eq_none {b : Bitmap n} {before : Nat} (h : b.prev? before = none) {j : Nat} (hj : j < before) :
    b.contains j = false := by
  have hSpec := b.prev?_spec before
  rw [h] at hSpec
  exact hSpec j hj

theorem range'_split {start i stop : Nat} (hStart : start ≤ i) (hi : i < stop) :
    List.range' start (stop - start) =
      List.range' start (i - start) ++ i :: List.range' (i + 1) (stop - (i + 1)) := by
  rw [show stop - start = (i - start) + (stop - (i + 1) + 1) by omega, ← List.range'_append_1,
    show start + (i - start) = i by omega, List.range'_succ]

theorem walk_eq_filter (b : Bitmap n) (limit start : Nat) (h : n ≤ start + limit) :
    b.walk limit start = (List.range' start (n - start)).filter b.contains := by
  induction limit generalizing start with
  | zero =>
    rw [walk, show n - start = 0 by omega]
    rfl
  | succ limit ih =>
    rw [walk]
    cases hNext : b.next? start with
    | none =>
      rw [eq_comm, List.filter_eq_nil_iff]
      intro j hj
      rw [List.mem_range'_1] at hj
      simp [next?_eq_none hNext hj.1]
    | some i =>
      obtain ⟨hi, hMember, hBelow⟩ := next?_eq_some hNext
      have hn := lt_of_contains hMember
      have hFirst : (List.range' start (i - start)).filter b.contains = [] := by
        rw [List.filter_eq_nil_iff]
        intro j hj
        rw [List.mem_range'_1] at hj
        simp [hBelow j hj.1 (by omega)]
      rw [range'_split hi hn, List.filter_append, hFirst, List.nil_append, List.filter_cons_of_pos hMember,
        ← ih (i + 1) (by omega)]

theorem toList_eq_filter (b : Bitmap n) : b.toList = (List.range n).filter b.contains := by
  rw [toList, b.walk_eq_filter n 0 (by omega), Nat.sub_zero, List.range_eq_range']

theorem mem_toList {b : Bitmap n} {i : Nat} : i ∈ b.toList ↔ b.contains i = true := by
  rw [toList_eq_filter, List.mem_filter, List.mem_range]
  exact and_iff_right_of_imp lt_of_contains

theorem pairwise_toList (b : Bitmap n) : b.toList.Pairwise (· < ·) := by
  rw [toList_eq_filter]
  exact List.pairwise_lt_range.filter _

theorem nodup_toList (b : Bitmap n) : b.toList.Nodup := b.pairwise_toList.imp Nat.ne_of_lt

theorem Trimmed.length_toList {b : Bitmap n} (h : b.Trimmed) : b.toList.length = b.size := by
  rw [h.size_eq_count, toList_eq_filter, ← List.countP_eq_length_filter, Nat.count]
  simp only [Bool.decide_eq_true]

end OrdinalMap.Bitmap
