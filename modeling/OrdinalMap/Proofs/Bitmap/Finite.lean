import OrdinalMap.Proofs.Bitmap.Counting
import OrdinalMap.Proofs.Twin
import OrdinalMap.Recording
import Mathlib.Data.Finset.Card

/-! # Bitmaps as finite sets

A bitmap represents a set of indices below its capacity, and each change of it is
the same change of that set. As the bits beyond the capacity are never set, a set
has one bitmap only: equal members make equal bitmaps and equal recordings.
-/

namespace OrdinalMap.Bitmap

set_option autoImplicit false

variable {n : Nat} {b c : Bitmap n} {s s' : Finset Nat}

/-- What a change does to a set of indices below `n`. -/
def Change.onSet (n : Nat) : Change → EStateM Fault (Finset Nat) Unit
  | insert i => OrdinalMap.change fun s => if i < n then .ok (Insert.insert i s) else .error (.bitOutOfBounds i)
  | erase i => OrdinalMap.change fun s => if i < n then .ok (s.erase i) else .error (.bitOutOfBounds i)
  | clear => set (∅ : Finset Nat)
  | reset => set (∅ : Finset Nat)

structure Represents (b : Bitmap n) (s : Finset Nat) : Prop where
  lt : ∀ i ∈ s, i < n
  contains : ∀ i, b.contains i = decide (i ∈ s)
  isSet : ∀ i < n, b.isSet i = .ok (decide (i ∈ s))
  isSet_error : ∀ i, n ≤ i → b.isSet i = .error (.bitOutOfBounds i)
  size : b.size = s.card
  trimmed : b.Trimmed

theorem represents_of_contains (hTrimmed : b.Trimmed) (hContains : ∀ i, b.contains i = decide (i ∈ s)) :
    b.Represents s := by
  have hlt : ∀ i ∈ s, i < n := fun i hi => lt_of_contains ((hContains i).trans (decide_eq_true hi))
  refine ⟨hlt, hContains, ?_, ?_, ?_, hTrimmed⟩
  · intro i hi
    rw [isSet, if_pos hi, hContains]
  · intro i hi
    rw [isSet, if_neg (Nat.not_lt.mpr hi)]
  · rw [hTrimmed.size_eq_count, Nat.count_eq_card_filter_range]
    congr 1
    ext i
    simpa [hContains] using hlt i

theorem represents_empty : (empty : Bitmap n).Represents ∅ :=
  represents_of_contains trimmed_empty (by simp)

theorem represents_clear (b : Bitmap n) : b.clear.Represents ∅ :=
  represents_of_contains b.trimmed_clear (by simp)

theorem Represents.insert (h : b.Represents s) {i : Nat} (hc : b.insert i = .ok c) :
    c.Represents (Insert.insert i s) := by
  apply represents_of_contains (h.trimmed.insert hc)
  intro j
  simp [contains_insert hc, h.contains]

theorem Represents.erase (h : b.Represents s) {i : Nat} (hc : b.erase i = .ok c) : c.Represents (s.erase i) := by
  apply represents_of_contains (h.trimmed.erase hc)
  intro j
  simp [contains_erase hc, h.contains]

theorem Represents.eq_iff (hb : b.Represents s) (hc : c.Represents s') : b = c ↔ s = s' := by
  constructor
  · rintro rfl
    ext i
    rw [← decide_eq_true_iff (p := i ∈ s), ← hb.contains, hc.contains, decide_eq_true_iff]
  · rintro rfl
    apply hb.trimmed.eq_of_contains hc.trimmed
    intro i
    rw [hb.contains, hc.contains]

theorem record_inj : b.record = c.record ↔ b = c := by
  constructor
  · intro h
    have hByte : Function.Injective fun x : BitVec 8 => (⟨x⟩ : UInt8) := fun x y hxy => congrArg UInt8.toBitVec hxy
    have hLists : b.buckets.toList = c.buckets.toList := by
      apply List.map_injective_iff.mpr hByte
      simpa [record] using h
    cases b with | mk xs
    cases c with | mk ys
    exact congrArg Bitmap.mk (Vector.toList_inj.mp hLists)
  · rintro rfl
    rfl

section Changing

variable {i : Nat}

theorem act_insert (h : b.insert i = .ok c) : (Change.insert i).act b = .ok () c := by
  simp [Change.act, change, h]

theorem act_erase (h : b.erase i = .ok c) : (Change.erase i).act b = .ok () c := by
  simp [Change.act, change, h]

theorem act_insert_error (b : Bitmap n) (h : n ≤ i) :
    (Change.insert i).act b = .error (.bitOutOfBounds i) b := by
  simp [Change.act, change, insert_of_le h]

theorem act_erase_error (b : Bitmap n) (h : n ≤ i) : (Change.erase i).act b = .error (.bitOutOfBounds i) b := by
  simp [Change.act, change, erase_of_le h]

end Changing

/-- A change of a bitmap and of the set that it represents: both end alike. -/
theorem Represents.act (h : b.Represents s) (x : Change) :
    Twin x.act (x.onSet n) b s (fun a a' b' s' => a' = a ∧ b'.Represents s')
      (fun f f' b' s' => f' = f ∧ b'.Represents s') := by
  cases x with
  | insert i =>
    obtain hi | hi := Nat.lt_or_ge i n
    · obtain ⟨c, hc⟩ := insert_of_lt (b := b) hi
      have hSet : (Change.insert i).onSet n s = .ok () (Insert.insert i s) := by
        simp [Change.onSet, change, hi]
      exact twin_of_ok (act_insert hc) hSet ⟨rfl, h.insert hc⟩
    · have hSet : (Change.insert i).onSet n s = .error (.bitOutOfBounds i) s := by
        simp [Change.onSet, change, Nat.not_lt.mpr hi]
      exact twin_of_error (act_insert_error b hi) hSet ⟨rfl, h⟩
  | erase i =>
    obtain hi | hi := Nat.lt_or_ge i n
    · obtain ⟨c, hc⟩ := erase_of_lt (b := b) hi
      have hSet : (Change.erase i).onSet n s = .ok () (s.erase i) := by simp [Change.onSet, change, hi]
      exact twin_of_ok (act_erase hc) hSet ⟨rfl, h.erase hc⟩
    · have hSet : (Change.erase i).onSet n s = .error (.bitOutOfBounds i) s := by
        simp [Change.onSet, change, Nat.not_lt.mpr hi]
      exact twin_of_error (act_erase_error b hi) hSet ⟨rfl, h⟩
  | clear => exact ⟨rfl, represents_clear b⟩
  | reset => exact ⟨rfl, represents_empty⟩

theorem course_represents (xs : List Change) (h : b.Represents s) :
    (course (Change.onSet n) xs s).1 = (course Change.act xs b).1 ∧
      (course Change.act xs b).2.Represents (course (Change.onSet n) xs s).2 :=
  course_same (fun x _ _ hx => hx.act x) xs h

/-- Over every course of changes a bitmap of capacity `n` and a set of indices below
`n` give the same, and in the end the bitmap represents the set. Two bitmaps that
were reached so are equal, and recorded alike, just if the sets are equal. -/
theorem refines_finset (n : Nat) (xs : List Change) :
    let b := (course Change.act xs (empty : Bitmap n)).2
    let s := (course (Change.onSet n) xs ∅).2
    (course Change.act xs (empty : Bitmap n)).1 = (course (Change.onSet n) xs ∅).1 ∧
    b.Represents s ∧
    (∀ i < n, i / 8 < bucketCount n ∧
      (∃ c, (Change.insert i).act b = .ok () c ∧ c.Represents (Insert.insert i s)) ∧
      ∃ c, (Change.erase i).act b = .ok () c ∧ c.Represents (s.erase i)) ∧
    (∀ i, n ≤ i → (Change.insert i).act b = .error (.bitOutOfBounds i) b ∧
      (Change.erase i).act b = .error (.bitOutOfBounds i) b) ∧
    ∀ ys : List Change,
      let c := (course Change.act ys (empty : Bitmap n)).2
      let s' := (course (Change.onSet n) ys ∅).2
      (b = c ↔ s = s') ∧ (b.record = c.record ↔ s = s') := by
  intro b s
  obtain ⟨hResults, hb⟩ := course_represents xs (represents_empty (n := n))
  refine ⟨hResults.symm, hb, ?_, ?_, ?_⟩
  · intro i hi
    obtain ⟨c, hInsert⟩ := insert_of_lt (b := b) hi
    obtain ⟨c', hErase⟩ := erase_of_lt (b := b) hi
    exact ⟨bucket_lt hi, ⟨c, act_insert hInsert, hb.insert hInsert⟩, c', act_erase hErase, hb.erase hErase⟩
  · exact fun i hi => ⟨act_insert_error b hi, act_erase_error b hi⟩
  · intro ys c s'
    have hSame := hb.eq_iff (course_represents ys represents_empty).2
    exact ⟨hSame, record_inj.trans hSame⟩

end OrdinalMap.Bitmap
