import OrdinalMap.Recording
import Mathlib.Data.List.Basic

/-! # Faithful recordings

A type is recorded faithfully if its values always have recordings, which are the
same just if the values are equal, and none of which is a proper prefix of another.
Then a recording can be split off the front of whatever follows it.
-/

namespace OrdinalMap

set_option autoImplicit false

variable {ν : Type}

structure Faithful (ν : Type) [BEq ν] [Recordable ν] : Prop where
  total : ∀ v : ν, ∃ r, Recordable.record v = .ok r
  beq_iff : ∀ v w : ν, (v == w) = true ↔ Recordable.record v = Recordable.record w
  eq_of_prefix : ∀ (v w : ν) (r s : List Token),
    Recordable.record v = .ok r → Recordable.record w = .ok s → r <+: s → r = s

theorem Faithful.append_inj [BEq ν] [Recordable ν] (h : Faithful ν) {v w : ν} {r s a b : List Token}
    (hr : Recordable.record v = .ok r) (hs : Recordable.record w = .ok s) (hEq : r ++ a = s ++ b) :
    (v == w) = true ∧ a = b := by
  have hPrefix : r <+: s ++ b := hEq ▸ List.prefix_append r a
  have hSame : r = s := by
    obtain hrs | hsr := List.prefix_or_prefix_of_prefix hPrefix (List.prefix_append s b)
    · exact h.eq_of_prefix v w r s hr hs hrs
    · exact (h.eq_of_prefix w v s r hs hr hsr).symm
  constructor
  · rw [h.beq_iff, hr, hs, hSame]
  · rw [hSame] at hEq
    exact List.append_cancel_left hEq

/-- Recordings of one length are no prefixes of one another. -/
theorem faithful_of_length [BEq ν] [Recordable ν] (record : ν → List Token) (n : Nat)
    (hRecord : ∀ v, Recordable.record v = .ok (record v)) (hLength : ∀ v, (record v).length = n)
    (hBeq : ∀ v w, (v == w) = true ↔ record v = record w) : Faithful ν where
  total v := ⟨_, hRecord v⟩
  beq_iff v w := by rw [hBeq, hRecord, hRecord, Except.ok.injEq]
  eq_of_prefix := by
    intro v w r s hr hs hPrefix
    rw [hRecord, Except.ok.injEq] at hr hs
    apply hPrefix.eq_of_length
    rw [← hr, ← hs, hLength, hLength]

theorem faithful_int64 : Faithful Int64 := by
  refine faithful_of_length (fun i => [.int i.toInt]) 1 (fun _ => rfl) (fun _ => rfl) fun i j => ?_
  rw [beq_iff_eq, List.singleton_inj, Token.int.injEq, Int64.toInt_inj]

theorem byteArray_loop (bs : ByteArray) (i : Nat) (r : List UInt8) :
    ByteArray.toList.loop bs i r = r.reverse ++ bs.data.toList.drop i := by
  fun_induction ByteArray.toList.loop bs i r with
  | case1 i r hi ih =>
    have hLength : i < bs.data.toList.length := hi
    have hGet : bs.get! i = bs.data.toList[i] := getElem!_pos bs.data i hi
    rw [ih, List.drop_eq_getElem_cons hLength, List.reverse_cons, List.append_assoc, hGet]
    rfl
  | case2 i r hi =>
    have hLength : bs.data.toList.length ≤ i := Nat.le_of_not_lt hi
    rw [List.drop_eq_nil_of_le hLength, List.append_nil]

theorem byteArray_toList (bs : ByteArray) : bs.toList = bs.data.toList :=
  (byteArray_loop bs 0 []).trans (List.nil_append _)

theorem faithful_string : Faithful String := by
  refine faithful_of_length (fun s => [.bytes s.toUTF8.toList, .byte 255]) 2 (fun _ => rfl) (fun _ => rfl)
    fun s s' => ?_
  rw [beq_iff_eq, List.cons_eq_cons, and_iff_left rfl, Token.bytes.injEq, byteArray_toList, byteArray_toList,
    Array.toList_inj, ← ByteArray.ext_iff]
  exact String.toByteArray_inj.symm

end OrdinalMap
