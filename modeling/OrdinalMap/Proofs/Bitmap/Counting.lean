import OrdinalMap.Bitmap.Membership
import Mathlib.Data.Nat.Count

/-! # Counting the members of a bitmap

The size of a bitmap adds up the bits of its buckets, those beyond the capacity
included. No operation sets any of these, and while none is set the size is
the number of members.
-/

namespace OrdinalMap.Bitmap

set_option autoImplicit false

variable {n : Nat}

def Trimmed (b : Bitmap n) : Prop := ∀ i, n ≤ i → b.bit i = false

theorem Trimmed.contains_eq_bit {b : Bitmap n} (h : b.Trimmed) (i : Nat) : b.contains i = b.bit i := by
  rw [Bitmap.contains_eq_bit]
  obtain hi | hi := Nat.lt_or_ge i n
  · simp [hi]
  · simp [h i hi]

theorem trimmed_empty : (empty : Bitmap n).Trimmed := fun i _ => bit_empty i

theorem trimmed_clear (b : Bitmap n) : b.clear.Trimmed := fun i _ => bit_clear b i

theorem Trimmed.insert {b c : Bitmap n} {i : Nat} (hb : b.Trimmed) (h : b.insert i = .ok c) :
    c.Trimmed := by
  intro j hj
  have hne : j ≠ i := by
    have hi := lt_of_insert h
    omega
  rw [bit_insert h, hb j hj]
  simp [hne]

theorem Trimmed.erase {b c : Bitmap n} {i : Nat} (hb : b.Trimmed) (h : b.erase i = .ok c) :
    c.Trimmed := by
  intro j hj
  rw [bit_erase h, hb j hj]
  simp

theorem eq_of_bit {b c : Bitmap n} (h : ∀ i, b.bit i = c.bit i) : b = c := by
  cases b with | mk xs
  cases c with | mk ys
  congr 1
  apply Vector.ext
  intro g hg
  apply BitVec.eq_of_getLsbD_eq
  intro r hr
  have hBit := h (8 * g + r)
  have hd : (8 * g + r) / 8 = g := by omega
  have hm : (8 * g + r) % 8 = r := by omega
  rw [bit_of_lt (by rwa [hd]), bit_of_lt (by rwa [hd])] at hBit
  simpa only [hd, hm] using hBit

/-- Trimmed bitmaps with the same members are the same. -/
theorem Trimmed.eq_of_contains {b c : Bitmap n} (hb : b.Trimmed) (hc : c.Trimmed)
    (h : ∀ i, b.contains i = c.contains i) : b = c := by
  apply eq_of_bit
  intro i
  rw [← hb.contains_eq_bit, ← hc.contains_eq_bit, h i]

theorem clear_eq (b : Bitmap n) : b.clear = .empty :=
  b.trimmed_clear.eq_of_contains trimmed_empty fun i => (contains_clear b i).trans (contains_empty i).symm

theorem bitAt_cons_of_lt (x : BitVec 8) (xs : List (BitVec 8)) {j : Nat} (h : j < 8) :
    bitAt (x :: xs) j = x.getLsbD j := by
  rw [bitAt, Nat.div_eq_of_lt h, Nat.mod_eq_of_lt h]
  rfl

theorem bitAt_cons_add (x : BitVec 8) (xs : List (BitVec 8)) (j : Nat) :
    bitAt (x :: xs) (8 + j) = bitAt xs j := by
  rw [bitAt, bitAt, Nat.add_mod_left, show (8 + j) / 8 = j / 8 + 1 by omega, List.getD_cons_succ]

theorem count_congr {p q : Nat → Prop} [DecidablePred p] [DecidablePred q] {k : Nat}
    (h : ∀ j < k, (p j ↔ q j)) : Nat.count p k = Nat.count q k :=
  le_antisymm (Nat.count_mono_left fun j hj => (h j hj).mp)
    (Nat.count_mono_left fun j hj => (h j hj).mpr)

theorem cpopNatRec_eq_count (x : BitVec 8) (k : Nat) :
    x.cpopNatRec k 0 = Nat.count (fun j => x.getLsbD j = true) k := by
  induction k with
  | zero => rfl
  | succ k ih =>
    rw [BitVec.cpopNatRec_succ, BitVec.cpopNatRec_eq, ih, Nat.count_succ]
    cases x.getLsbD k <;> rfl

theorem cpop_eq_count (x : BitVec 8) : x.cpop.toNat = Nat.count (fun j => x.getLsbD j = true) 8 := by
  have h : Nat.count (fun j => x.getLsbD j = true) 8 ≤ 8 := Nat.count_le _
  rw [BitVec.cpop, BitVec.toNat_ofNat, cpopNatRec_eq_count]
  exact Nat.mod_eq_of_lt (by omega)

theorem sum_cpop (xs : List (BitVec 8)) :
    xs.foldr (fun x total => x.cpop.toNat + total) 0 = Nat.count (fun j => bitAt xs j = true) (8 * xs.length) := by
  induction xs with
  | nil => rfl
  | cons x xs ih =>
    have hFirst : Nat.count (fun j => bitAt (x :: xs) j = true) 8 = x.cpop.toNat := by
      rw [cpop_eq_count]
      exact count_congr fun j hj => by rw [bitAt_cons_of_lt x xs hj]
    rw [List.foldr_cons, ih, List.length_cons, Nat.mul_succ, Nat.add_comm (8 * _),
      Nat.count_add, hFirst]
    simp only [bitAt_cons_add]

theorem Trimmed.size_eq_count {b : Bitmap n} (h : b.Trimmed) :
    b.size = Nat.count (fun i => b.contains i = true) n := by
  have hn : 8 * bucketCount n = n + (8 * bucketCount n - n) := by
    unfold bucketCount
    omega
  have hRest : Nat.count (fun j => b.bit (n + j) = true) (8 * bucketCount n - n) = 0 := by
    rw [Nat.count_iff_forall_not]
    intro j _
    simp [h (n + j) (Nat.le_add_right n j)]
  calc
    b.size = Nat.count (fun j => b.bit j = true) (8 * bucketCount n) := by
      rw [size, sum_cpop, Vector.length_toList]
      rfl
    _ = Nat.count (fun j => b.bit j = true) n := by rw [hn, Nat.count_add, hRest, Nat.add_zero]
    _ = Nat.count (fun j => b.contains j = true) n := by simp only [h.contains_eq_bit]

theorem count_add_one {p q : Nat → Prop} [DecidablePred p] [DecidablePred q] {i k : Nat} (hi : i < k)
    (hp : ¬ p i) (hq : ∀ j, q j ↔ j = i ∨ p j) : Nat.count q k = Nat.count p k + 1 := by
  induction k with
  | zero => exact absurd hi (Nat.not_lt_zero i)
  | succ k ih =>
    rw [Nat.count_succ, Nat.count_succ]
    obtain hk | rfl := Nat.lt_succ_iff_lt_or_eq.mp hi
    · have hqk : q k ↔ p k := by
        rw [hq]
        exact or_iff_right (Nat.ne_of_gt hk)
      simp only [ih hk, hqk]
      omega
    · have hSame : Nat.count q i = Nat.count p i := by
        refine count_congr fun j hj => ?_
        rw [hq]
        exact or_iff_right (Nat.ne_of_lt hj)
      rw [hSame, if_neg hp, if_pos ((hq i).mpr (.inl rfl))]

theorem Trimmed.size_insert {b c : Bitmap n} {i : Nat} (hb : b.Trimmed) (h : b.insert i = .ok c)
    (hi : b.contains i = false) : c.size = b.size + 1 := by
  rw [(hb.insert h).size_eq_count, hb.size_eq_count]
  apply count_add_one (lt_of_insert h) (by simp [hi])
  intro j
  simp [contains_insert h]

theorem Trimmed.size_erase {b c : Bitmap n} {i : Nat} (hb : b.Trimmed) (h : b.erase i = .ok c)
    (hi : b.contains i = true) : b.size = c.size + 1 := by
  rw [(hb.erase h).size_eq_count, hb.size_eq_count]
  apply count_add_one (lt_of_erase h) (by simp [contains_erase h])
  intro j
  by_cases hj : j = i
  · simp [hj, hi]
  · simp [contains_erase h, hj]

theorem size_empty : (empty : Bitmap n).size = 0 := by
  rw [trimmed_empty.size_eq_count, Nat.count_iff_forall_not]
  simp

theorem size_clear (b : Bitmap n) : b.clear.size = 0 := by rw [clear_eq, size_empty]

end OrdinalMap.Bitmap
