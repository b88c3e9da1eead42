import OrdinalMap.Bitmap

/-! # Membership after each operation

What `contains` says of the empty bitmap, and after inserting, erasing and
clearing. `bit` also looks at the bits beyond the capacity, which share the
last bucket with the members. The statements do not mention buckets.
-/

namespace OrdinalMap.Bitmap

set_option autoImplicit false

variable {n : Nat}

def bitAt (xs : List (BitVec 8)) (j : Nat) : Bool := (xs.getD (j / 8) 0).getLsbD (j % 8)

/-- Bit `i` of a bitmap, whether or not `i` can be a member. -/
def bit (b : Bitmap n) (i : Nat) : Bool := bitAt b.buckets.toList i

theorem bit_of_lt {b : Bitmap n} {i : Nat} (h : i / 8 < bucketCount n) :
    b.bit i = b.buckets[i / 8].getLsbD (i % 8) := by
  simp [bit, bitAt, List.getD_eq_getElem?_getD, h]

theorem bit_of_le {b : Bitmap n} {i : Nat} (h : bucketCount n ≤ i / 8) : b.bit i = false := by
  simp [bit, bitAt, List.getD_eq_getElem?_getD, h]

theorem contains_eq_bit (b : Bitmap n) (i : Nat) : b.contains i = (decide (i < n) && b.bit i) := by
  obtain h | h := Nat.lt_or_ge i n
  · simp [contains, h, bit_of_lt (bucket_lt h)]
  · simp [contains, Nat.not_lt.mpr h]

theorem contains_of_le {b : Bitmap n} {i : Nat} (h : n ≤ i) : b.contains i = false := by
  simp [contains, Nat.not_lt.mpr h]

theorem lt_of_contains {b : Bitmap n} {i : Nat} (h : b.contains i = true) : i < n := by
  obtain hi | hi := Nat.lt_or_ge i n
  · exact hi
  · rw [contains_of_le hi] at h
    exact nomatch h

@[simp]
theorem bit_empty (i : Nat) : (empty : Bitmap n).bit i = false := by
  obtain h | h := Nat.lt_or_ge (i / 8) (bucketCount n)
  · simp [bit_of_lt h, empty]
  · exact bit_of_le h

@[simp]
theorem bit_clear (b : Bitmap n) (i : Nat) : b.clear.bit i = false := by
  obtain h | h := Nat.lt_or_ge (i / 8) (bucketCount n)
  · simp [bit_of_lt h, clear]
  · exact bit_of_le h

@[simp]
theorem contains_empty (i : Nat) : (empty : Bitmap n).contains i = false := by
  simp [contains_eq_bit]

@[simp]
theorem contains_clear (b : Bitmap n) (i : Nat) : b.clear.contains i = false := by
  simp [contains_eq_bit]

theorem insert_of_le {b : Bitmap n} {i : Nat} (h : n ≤ i) :
    b.insert i = .error (.bitOutOfBounds i) := by
  simp [insert, Nat.not_lt.mpr h]

theorem insert_of_lt {b : Bitmap n} {i : Nat} (h : i < n) : ∃ c, b.insert i = .ok c := by
  simp [insert, h]

theorem lt_of_insert {b c : Bitmap n} {i : Nat} (h : b.insert i = .ok c) : i < n := by
  obtain hi | hi := Nat.lt_or_ge i n
  · exact hi
  · rw [insert_of_le hi] at h
    exact nomatch h

theorem erase_of_le {b : Bitmap n} {i : Nat} (h : n ≤ i) :
    b.erase i = .error (.bitOutOfBounds i) := by
  simp [erase, Nat.not_lt.mpr h]

theorem erase_of_lt {b : Bitmap n} {i : Nat} (h : i < n) : ∃ c, b.erase i = .ok c := by
  simp [erase, h]

theorem lt_of_erase {b c : Bitmap n} {i : Nat} (h : b.erase i = .ok c) : i < n := by
  obtain hi | hi := Nat.lt_or_ge i n
  · exact hi
  · rw [erase_of_le hi] at h
    exact nomatch h

theorem eq_of_bucket_eq {i j : Nat} (hd : i / 8 = j / 8) (hm : i % 8 = j % 8) : i = j := by
  omega

theorem bit_setBucket (b : Bitmap n) {g : Nat} (hg : g < bucketCount n) (y : BitVec 8) (j : Nat) :
    (⟨b.buckets.set g y⟩ : Bitmap n).bit j = if g = j / 8 then y.getLsbD (j % 8) else b.bit j := by
  obtain hj | hj := Nat.lt_or_ge (j / 8) (bucketCount n)
  · rw [bit_of_lt hj, bit_of_lt hj, Vector.getElem_set]
    split <;> rfl
  · rw [bit_of_le hj, bit_of_le hj, if_neg (by omega)]

theorem bit_insert {b c : Bitmap n} {i : Nat} (h : b.insert i = .ok c) (j : Nat) :
    c.bit j = (decide (j = i) || b.bit j) := by
  have hi := lt_of_insert h
  simp only [insert, hi, ↓reduceDIte, Except.ok.injEq] at h
  rw [← h, bit_setBucket b (bucket_lt hi)]
  by_cases hd : i / 8 = j / 8
  · have hm : j % 8 < 8 := Nat.mod_lt _ (by decide)
    rw [if_pos hd, bit_of_lt (hd ▸ bucket_lt hi)]
    by_cases hr : i % 8 = j % 8
    · simp [hm, eq_of_bucket_eq hd hr]
    · have hne : j ≠ i := fun e => hr (e ▸ rfl)
      simp [hd, Ne.symm hr, hm, hne]
  · have hne : j ≠ i := fun e => hd (e ▸ rfl)
    simp [hd, hne]

theorem bit_erase {b c : Bitmap n} {i : Nat} (h : b.erase i = .ok c) (j : Nat) :
    c.bit j = (decide (j ≠ i) && b.bit j) := by
  have hi := lt_of_erase h
  simp only [erase, hi, ↓reduceDIte, Except.ok.injEq] at h
  rw [← h, bit_setBucket b (bucket_lt hi)]
  by_cases hd : i / 8 = j / 8
  · have hm : j % 8 < 8 := Nat.mod_lt _ (by decide)
    rw [if_pos hd, bit_of_lt (hd ▸ bucket_lt hi)]
    by_cases hr : i % 8 = j % 8
    · simp [hm, eq_of_bucket_eq hd hr]
    · have hne : j ≠ i := fun e => hr (e ▸ rfl)
      simp [hd, Ne.symm hr, hm, hne]
  · have hne : j ≠ i := fun e => hd (e ▸ rfl)
    simp [hd, hne]

theorem contains_insert {b c : Bitmap n} {i : Nat} (h : b.insert i = .ok c) (j : Nat) :
    c.contains j = (decide (j = i) || b.contains j) := by
  have hi := lt_of_insert h
  rw [contains_eq_bit, contains_eq_bit, bit_insert h]
  by_cases hj : j = i
  · simp [hj, hi]
  · simp [hj]

theorem contains_erase {b c : Bitmap n} {i : Nat} (h : b.erase i = .ok c) (j : Nat) :
    c.contains j = (decide (j ≠ i) && b.contains j) := by
  rw [contains_eq_bit, contains_eq_bit, bit_erase h]
  by_cases hj : j = i
  · simp [hj]
  · simp [hj]

end OrdinalMap.Bitmap
