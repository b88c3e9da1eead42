import OrdinalMap.Bitmap.Text
import OrdinalMap.Proofs.Bitmap.Finite
import OrdinalMap.Proofs.Bitmap.Scanning

/-! # The text of a bitmap by groups

A bitmap is written bit by bit, and reads as its groups of eight bits with one blank
between them. What is written beside the digits depends on the capacity alone. So every
digit has a place of its own, where it stands in all texts of bitmaps of that capacity,
and the members can be read off the text.
-/

namespace OrdinalMap.Bitmap

set_option autoImplicit false

variable {n : Nat} {b c : Bitmap n}

def digit (b : Bitmap n) (i : Nat) : String := if b.contains i then "1" else "0"

/-- The bits from `8 * g` on, up to the end of their group or of the bitmap, under the
number of the first. -/
def groupText (b : Bitmap n) (g : Nat) : String :=
  toString (8 * g) ++ ": " ++ String.join ((List.range' (8 * g) (min (8 * g + 8) n - 8 * g)).map b.digit)

def heading (i : Nat) : String := if i % 8 = 0 then toString i ++ ": " else ""

def gap (n i : Nat) : String := if i % 8 = 7 ∧ i + 1 < n then " " else ""

theorem bitText_eq (b : Bitmap n) (i : Nat) : b.bitText i = heading i ++ b.digit i ++ gap n i := rfl

section Groups

theorem heading_first (g : Nat) : heading (8 * g) = toString (8 * g) ++ ": " := if_pos (Nat.mul_mod_right 8 g)

theorem heading_inner (g : Nat) {r : Nat} (hPos : 0 < r) (hr : r < 8) : heading (8 * g + r) = "" := if_neg (by omega)

theorem gap_inner (g : Nat) {r : Nat} (hr : r < 7) : gap n (8 * g + r) = "" := if_neg (by omega)

theorem gap_end {i : Nat} (h : n ≤ i + 1) : gap n i = "" := if_neg (by omega)

theorem gap_between {g : Nat} (h : 8 * (g + 1) < n) : gap n (8 * g + 7) = " " := if_pos (by omega)

/-- The first bits of a group. Only the gap after the last of them is left open. -/
theorem join_group (b : Bitmap n) (g : Nat) {w : Nat} (hw : w < 8) :
    String.join ((List.range' (8 * g) (w + 1)).map b.bitText) =
      toString (8 * g) ++ ": " ++ String.join ((List.range' (8 * g) (w + 1)).map b.digit) ++ gap n (8 * g + w) := by
  induction w with
  | zero => simp [bitText_eq, heading_first]
  | succ w ih =>
    -- the bit that was the last one now stands inside the group
    rw [List.range'_1_concat, List.map_append, List.map_append, String.join_append, String.join_append,
      ih (by omega), gap_inner g (by omega)]
    simp [bitText_eq, heading_inner g (Nat.succ_pos w) hw, String.append_assoc]

/-- The groups from `g` on are all bits from `8 * g` on. -/
theorem join_groups (b : Bitmap n) {g k : Nat} (hk : bucketCount n = g + k) :
    String.join ((List.range' (8 * g) (n - 8 * g)).map b.bitText) =
      " ".intercalate ((List.range' g k).map b.groupText) := by
  unfold bucketCount at hk
  induction k generalizing g with
  | zero =>
    rw [show n - 8 * g = 0 by omega]
    simp
  | succ k ih =>
    cases k with
    | zero =>
      -- the last group, full or not: nothing follows it
      obtain ⟨w, hw⟩ : ∃ w, n - 8 * g = w + 1 := ⟨n - 8 * g - 1, by omega⟩
      rw [hw, join_group b g (by omega), gap_end (by omega)]
      simp [groupText, show min (8 * g + 8) n - 8 * g = w + 1 by omega]
    | succ k =>
      have hRest := ih (g := g + 1) (by omega)
      rw [Nat.mul_succ] at hRest
      rw [show n - 8 * g = 8 + (n - (8 * g + 8)) by omega, ← List.range'_append_1, List.map_append,
        String.join_append, join_group b g (by decide), gap_between (by omega), hRest]
      simp [groupText, List.range'_succ, show min (8 * g + 8) n - 8 * g = 8 by omega]

theorem text_eq_groups (b : Bitmap n) :
    b.text = "LSB -> " ++ " ".intercalate ((List.range (bucketCount n)).map b.groupText) ++ " <- MSB" := by
  rw [text, List.range_eq_range', List.range_eq_range', ← b.join_groups (Nat.zero_add _).symm]
  rfl

end Groups

section Places

/-- How many characters are written for bit `i`. -/
def bitWidth (n i : Nat) : Nat := (heading i).length + 1 + (gap n i).length

/-- Where bit `i` begins in the text of a bitmap of capacity `n`. -/
def bitPlace (n : Nat) : Nat → Nat
  | 0 => "LSB -> ".length
  | i + 1 => bitPlace n i + bitWidth n i

def digitPlace (n i : Nat) : Nat := bitPlace n i + (heading i).length

theorem toList_digit (b : Bitmap n) (i : Nat) : (b.digit i).toList = [if b.contains i then '1' else '0'] := by
  unfold digit
  split <;> rfl

theorem length_bitText (b : Bitmap n) (i : Nat) : (b.bitText i).length = bitWidth n i := by
  have hDigit : (b.digit i).length = 1 := by rw [← String.length_toList, toList_digit, List.length_singleton]
  rw [bitText_eq, String.length_append, String.length_append, hDigit, bitWidth]

theorem length_bits (b : Bitmap n) (i : Nat) :
    ("LSB -> " ++ String.join ((List.range i).map b.bitText)).length = bitPlace n i := by
  induction i with
  | zero => rfl
  | succ i ih =>
    rw [List.range_succ, List.map_append, String.join_append, ← String.append_assoc, String.length_append, ih,
      bitPlace, ← b.length_bitText i]
    simp

theorem text_digit (b : Bitmap n) {i : Nat} (hi : i < n) :
    b.text.toList[digitPlace n i]? = some (if b.contains i then '1' else '0') := by
  have hRange : List.range n = List.range i ++ i :: List.range' (i + 1) (n - (i + 1)) := by
    simpa only [List.range_eq_range', Nat.sub_zero] using range'_split (Nat.zero_le i) hi
  obtain ⟨rest, hText⟩ : ∃ rest, b.text =
      "LSB -> " ++ String.join ((List.range i).map b.bitText) ++ heading i ++ (b.digit i ++ rest) := by
    refine ⟨gap n i ++ String.join ((List.range' (i + 1) (n - (i + 1))).map b.bitText) ++ " <- MSB", ?_⟩
    rw [text, hRange, List.map_append, List.map_cons, String.join_append, String.join_cons, bitText_eq]
    simp only [String.append_assoc]
  have hPlace : ("LSB -> " ++ String.join ((List.range i).map b.bitText) ++ heading i).toList.length =
      digitPlace n i := by
    rw [String.length_toList, String.length_append, length_bits, digitPlace]
  rw [hText, String.toList_append, ← hPlace, List.getElem?_append_right le_rfl, Nat.sub_self,
    String.toList_append, toList_digit]
  rfl

theorem Trimmed.text_inj (hb : b.Trimmed) (hc : c.Trimmed) : b.text = c.text ↔ b = c := by
  constructor
  · intro h
    apply hb.eq_of_contains hc
    intro i
    obtain hi | hi := Nat.lt_or_ge i n
    · have hDigits := b.text_digit hi
      rw [h, c.text_digit hi, Option.some.injEq] at hDigits
      revert hDigits
      cases b.contains i <;> cases c.contains i <;> simp
    · rw [contains_of_le hi, contains_of_le hi]
  · rintro rfl
    rfl

end Places

/-- After every course of changes the text of a bitmap is its groups of bits, with one
blank between them; at capacity zero there are none. The digit of each bit has its place,
which the capacity and the number of the bit determine. Therefore two bitmaps that were
reached have the same text just if they are equal. -/
theorem text_exact (n : Nat) (xs : List Change) :
    let b := (course Change.act xs (empty : Bitmap n)).2
    b.text = "LSB -> " ++ " ".intercalate ((List.range (bucketCount n)).map b.groupText) ++ " <- MSB" ∧
    (∀ i < n, ∃ d, b.isSet i = .ok d ∧ b.text.toList[digitPlace n i]? = some (if d then '1' else '0')) ∧
    ∀ ys : List Change,
      let c := (course Change.act ys (empty : Bitmap n)).2
      b.text = c.text ↔ b = c := by
  intro b
  have hb := (course_represents xs (represents_empty (n := n))).2
  refine ⟨b.text_eq_groups, ?_, ?_⟩
  · intro i hi
    exact ⟨b.contains i, if_pos hi, b.text_digit hi⟩
  · intro ys c
    have hc := (course_represents ys (represents_empty (n := n))).2
    exact hb.trimmed.text_inj hc.trimmed

/-- The second group of nine bits has a single digit. -/
example : (course Change.act [.insert 0, .insert 2, .insert 7] (empty : Bitmap 9)).2.text =
    "LSB -> 0: 10100001 8: 0 <- MSB" := by decide +kernel

example : (empty : Bitmap 0).text = "LSB ->  <- MSB" := by decide +kernel

end OrdinalMap.Bitmap
