import OrdinalMap.Proofs.Bitmap.Finite
import OrdinalMap.Proofs.Bitmap.Stepwise

/-! # Walking through a bitmap

A scan that is repeated comes by every member and stops after the last one. Both walks
follow a list: the upward one the members in ascending order, the downward one the same
list in reverse. What comes after a member in such a list are the members that are still
ahead of it, and the scan finds the first of these.
-/

namespace OrdinalMap

set_option autoImplicit false

/-- A list is followed to its end if what each of its elements leads to is the head of what
comes after it. There is one step for each element. -/
theorem Stepwise.follow_eq {next : Nat → Stepwise (Option Nat)} {is : List Nat}
    (h : ∀ i rest, i :: rest <:+ is → next i = pure rest.head?) (limit : Nat) :
    follow next limit is.head? = if is.length ≤ limit then pure is else throw .unfinished := by
  induction is generalizing limit with
  | nil => cases limit <;> rfl
  | cons i is ih =>
    cases limit with
    | zero => rfl
    | succ limit =>
      have hRest := ih (fun j rest hj => h j rest (hj.trans (List.suffix_cons i is))) limit
      rw [List.head?_cons, follow, h i is List.suffix_rfl, pure_bind, hRest, List.length_cons]
      simp only [Nat.succ_le_succ_iff]
      split <;> rfl

theorem mem_rest_iff {r : Nat → Nat → Prop} [Std.Asymm r] {i j : Nat} {rest is : List Nat} (h : is.Pairwise r)
    (hSuffix : i :: rest <:+ is) : j ∈ rest ↔ j ∈ is ∧ r i j := by
  obtain ⟨before, rfl⟩ := hSuffix
  obtain ⟨-, hRest, hBefore⟩ := List.pairwise_append.mp h
  obtain ⟨hFirst, -⟩ := List.pairwise_cons.mp hRest
  constructor
  · intro hj
    exact ⟨List.mem_append_right before (List.mem_cons_of_mem i hj), hFirst j hj⟩
  · rintro ⟨hj, hij⟩
    obtain hj | hj := List.mem_append.mp hj
    · exact absurd (hBefore j hj i List.mem_cons_self) (asymm hij)
    · obtain rfl | hj := List.mem_cons.mp hj
      · exact absurd hij (irrefl j)
      · exact hj

namespace Bitmap

open Stepwise

variable {n : Nat} {is : List Nat}

theorem next?_eq_head? {b : Bitmap n} {start : Nat} (hAscending : is.Pairwise (· < ·))
    (hMem : ∀ j, j ∈ is ↔ b.contains j = true ∧ start ≤ j) : b.next? start = is.head? := by
  cases is with
  | nil =>
    rw [List.head?_nil, next?_eq_none_iff]
    intro j hj
    by_contra hStart
    exact List.not_mem_nil ((hMem j).mpr ⟨hj, Nat.le_of_not_lt hStart⟩)
  | cons i is =>
    rw [List.head?_cons, next?_eq_some_iff]
    refine ⟨(hMem i).mp List.mem_cons_self, fun j hj => ?_⟩
    obtain rfl | hRest := List.mem_cons.mp ((hMem j).mpr hj)
    · exact le_rfl
    · exact Nat.le_of_lt ((List.pairwise_cons.mp hAscending).1 j hRest)

theorem prev?_eq_head? {b : Bitmap n} {before : Nat} (hDescending : is.Pairwise (· > ·))
    (hMem : ∀ j, j ∈ is ↔ b.contains j = true ∧ j < before) : b.prev? before = is.head? := by
  cases is with
  | nil =>
    rw [List.head?_nil, prev?_eq_none_iff]
    intro j hj
    by_contra hBefore
    exact List.not_mem_nil ((hMem j).mpr ⟨hj, Nat.lt_of_not_le hBefore⟩)
  | cons i is =>
    rw [List.head?_cons, prev?_eq_some_iff]
    refine ⟨(hMem i).mp List.mem_cons_self, fun j hj => ?_⟩
    obtain rfl | hRest := List.mem_cons.mp ((hMem j).mpr hj)
    · exact le_rfl
    · exact Nat.le_of_lt ((List.pairwise_cons.mp hDescending).1 j hRest)

theorem ascend_eq (hn : n < indexBound) (b : Bitmap n) (limit : Nat) :
    b.ascend limit = if b.toList.length ≤ limit then pure b.toList else throw .unfinished := by
  have hFirst : b.next? 0 = b.toList.head? :=
    next?_eq_head? b.pairwise_toList fun j => by rw [mem_toList, and_iff_left (Nat.zero_le j)]
  rw [ascend, scanUp_eq hn, pure_bind, hFirst]
  apply follow_eq
  intro i rest hSuffix
  have hi : i < n := lt_of_contains (mem_toList.mp (hSuffix.subset List.mem_cons_self))
  rw [word_of_lt (Nat.lt_of_le_of_lt hi hn), pure_bind, scanUp_eq hn]
  refine congrArg pure (next?_eq_head? ?_ fun j => ?_)
  · exact (List.pairwise_cons.mp (b.pairwise_toList.sublist hSuffix.sublist)).2
  · rw [mem_rest_iff b.pairwise_toList hSuffix, mem_toList, Nat.succ_le_iff]

theorem descend_eq (hn : n < indexBound) (b : Bitmap n) (limit : Nat) :
    b.descend limit = if b.toList.length ≤ limit then pure b.toList.reverse else throw .unfinished := by
  have hDescending : b.toList.reverse.Pairwise (· > ·) := List.pairwise_reverse.mpr b.pairwise_toList
  have hFirst : b.prev? beforeBegin = b.toList.reverse.head? := by
    refine prev?_eq_head? hDescending fun j => ?_
    rw [List.mem_reverse, mem_toList]
    refine (and_iff_left_of_imp fun hj => ?_).symm
    exact Nat.lt_of_lt_of_le (lt_of_contains hj) (Nat.le_sub_one_of_lt hn)
  rw [descend, scanDown_eq hn, pure_bind, hFirst, ← List.length_reverse]
  apply follow_eq
  intro i rest hSuffix
  rw [scanDown_eq hn]
  refine congrArg pure (prev?_eq_head? ?_ fun j => ?_)
  · exact (List.pairwise_cons.mp (hDescending.sublist hSuffix.sublist)).2
  · rw [mem_rest_iff hDescending hSuffix, List.mem_reverse, mem_toList, gt_iff_lt]

/-- Over every course of changes both walks come to an end without a trap, after exactly
as many steps as the bitmap has members and no earlier. Upwards the walk comes by all
members in ascending order, each of them once, and downwards by the same in reverse. -/
theorem walks_exact (hn : n < indexBound) (xs : List Change) :
    let b := (course Change.act xs (empty : Bitmap n)).2
    b.toList.Pairwise (· < ·) ∧ (∀ i, i ∈ b.toList ↔ b.contains i = true) ∧ b.toList.length = b.size ∧
    ∀ limit,
      b.ascend limit = (if b.size ≤ limit then .ok b.toList else .error .unfinished) ∧
      b.descend limit = (if b.size ≤ limit then .ok b.toList.reverse else .error .unfinished) := by
  intro b
  have hb := (course_represents xs (represents_empty (n := n))).2
  have hLength : b.toList.length = b.size := hb.trimmed.length_toList
  refine ⟨b.pairwise_toList, fun i => mem_toList, hLength, fun limit => ?_⟩
  rw [← hLength]
  exact ⟨ascend_eq hn b limit, descend_eq hn b limit⟩

/-- Two members, in buckets that are not next to each other. -/
theorem walks_exact_twenty :
    let b := (course Change.act [.insert 17, .insert 3, .insert 9, .erase 9] (empty : Bitmap 20)).2
    20 < indexBound ∧ b.ascend 2 = .ok [3, 17] ∧ b.descend 2 = .ok [17, 3] ∧ b.ascend 1 = .error .unfinished := by
  intro b
  have hn : 20 < indexBound := by decide
  obtain ⟨-, -, -, hWalks⟩ := walks_exact hn [.insert 17, .insert 3, .insert 9, .erase 9]
  obtain ⟨hUp, hDown⟩ := hWalks 2
  obtain ⟨hShort, -⟩ := hWalks 1
  refine ⟨hn, ?_, ?_, ?_⟩
  · rw [hUp]
    decide
  · rw [hDown]
    decide
  · rw [hShort]
    decide

end Bitmap

end OrdinalMap
