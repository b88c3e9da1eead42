import OrdinalMap.Proofs.Table.Position
import OrdinalMap.Proofs.TwoEnded
import OrdinalMap.Table.Walk

/-! # Walks over sound tables

The two ends of a walk close in on the entries between them and never cross.
What is left of a walk is the list of the ordinals that have an entry between
the ends: a pull takes one off that list, at the end at which it pulls. On a
domain whose data do not agree a pull may fault, with or without taking one off.
-/

namespace OrdinalMap

set_option autoImplicit false

/-- The indices from `i` on and below `j` that have a property, in ascending order. -/
def span (p : Nat → Bool) (i j : Nat) : List Nat := (List.range' i (j - i)).filter p

section Span

variable {p : Nat → Bool} {i j k stop : Nat}

theorem mem_span {l : Nat} : l ∈ span p i j ↔ i ≤ l ∧ l < j ∧ p l = true := by
  rw [span, List.mem_filter, List.mem_range'_1]
  constructor
  · rintro ⟨⟨hi, hj⟩, hp⟩
    exact ⟨hi, by omega, hp⟩
  · rintro ⟨hi, hj, hp⟩
    exact ⟨⟨hi, by omega⟩, hp⟩

example : span (fun i => i % 2 == 0) 1 7 = [2, 4, 6] := by decide

theorem pairwise_span (p : Nat → Bool) (i j : Nat) : (span p i j).Pairwise (· < ·) :=
  List.Pairwise.filter p (List.pairwise_lt_range' ..)

theorem nodup_span (p : Nat → Bool) (i j : Nat) : (span p i j).Nodup :=
  (pairwise_span p i j).imp Nat.ne_of_lt

theorem span_append (p : Nat → Bool) (hij : i ≤ j) (hjk : j ≤ k) :
    span p i k = span p i j ++ span p j k := by
  obtain ⟨m, rfl⟩ := Nat.exists_eq_add_of_le hij
  obtain ⟨n, rfl⟩ := Nat.exists_eq_add_of_le hjk
  rw [span, span, span, ← List.filter_append, Nat.add_sub_cancel_left, Nat.add_sub_cancel_left,
    List.range'_append_1, Nat.add_assoc, Nat.add_sub_cancel_left]

theorem span_eq_nil (h : ∀ l, i ≤ l → l < j → p l = false) : span p i j = [] := by
  rw [List.eq_nil_iff_forall_not_mem]
  intro l hl
  obtain ⟨hi, hj, hp⟩ := mem_span.mp hl
  rw [h l hi hj] at hp
  cases hp

theorem span_self (p : Nat → Bool) (i : Nat) : span p i i = [] :=
  span_eq_nil fun _ hi hj => absurd (hi.trans_lt hj) (lt_irrefl i)

theorem span_singleton (hp : p i = true) : span p i (i + 1) = [i] := by
  rw [span, Nat.add_sub_cancel_left, List.range'_one, List.filter_singleton, hp]
  rfl

theorem span_cons (hp : p i = true) (h : i < j) : span p i j = i :: span p (i + 1) j := by
  rw [span_append p (Nat.le_succ i) h, span_singleton hp, List.singleton_append]

theorem span_skip (hp : p i = false) (h : i < j) : span p i j = span p (i + 1) j := by
  rw [span, show j - i = j - (i + 1) + 1 by omega, List.range'_succ, List.filter_cons_of_neg (by simp [hp]), span]

theorem span_congr {q : Nat → Bool} (h : ∀ l, i ≤ l → l < j → p l = q l) : span p i j = span q i j := by
  apply List.filter_congr
  intro l hl
  rw [List.mem_range'_1] at hl
  exact h l hl.1 (by omega)

theorem IsNext.span_eq (h : IsNext p i stop k) (hk : k ≤ j) : span p i j = span p k j := by
  rw [span_append p h.start_le hk, span_eq_nil h.skipped, List.nil_append]

theorem IsNext.eq_headD (h : IsNext p i stop k) : k = (span p i stop).headD stop := by
  rw [h.span_eq h.le_stop]
  obtain hlt | rfl := h.le_stop.lt_or_eq
  · rw [span_cons (h.reached hlt) hlt]
    rfl
  · rw [span_self]
    rfl

theorem IsNext.span_eq_cons (h : IsNext p (i + 1) stop k) (hp : p i = true) (hk : k ≤ j) :
    span p i j = i :: span p k j := by
  rw [span_cons hp (h.start_le.trans hk), h.span_eq hk]

theorem IsPrev.span_eq_nil (h : IsPrev p j none) : span p i j = [] :=
  OrdinalMap.span_eq_nil fun l _ hl => h l hl

theorem IsPrev.span_eq_append (h : IsPrev p j (some k)) (hi : i ≤ k) : span p i j = span p i k ++ [k] := by
  obtain ⟨hk, hp, hSkipped⟩ := h
  calc
    span p i j = span p i k ++ span p k j := span_append p hi hk.le
    _ = span p i k ++ (span p k (k + 1) ++ span p (k + 1) j) := by rw [span_append p (Nat.le_succ k) hk]
    _ = span p i k ++ [k] := by
      rw [span_singleton hp, OrdinalMap.span_eq_nil fun l hl hlt => hSkipped l hl hlt, List.append_nil]

end Span

namespace Table

variable {κ ν : Type} {D : Domain κ} {t : Table D ν} {m : Nat → Option ν}

theorem Shows.mem_span (h : t.Shows m) {i : Nat} :
    i ∈ span (fun i => (m i).isSome) 0 D.capacity ↔ t.holds i = true := by
  rw [OrdinalMap.mem_span, ← h.holds]
  exact ⟨fun hi => hi.2.2, fun hi => ⟨Nat.zero_le i, Bitmap.lt_of_contains hi, hi⟩⟩

theorem Shows.length_span (h : t.Shows m) : (span (fun i => (m i).isSome) 0 D.capacity).length = t.size := by
  rw [h.size_eq, span, Nat.sub_zero, ← List.range_eq_range', ← List.countP_eq_length_filter, Nat.count]
  simp only [Bool.decide_eq_true]

end Table

namespace Walk

variable {κ ν : Type} {D : Domain κ} {a : Access} {t : Table D ν} {m : Nat → Option ν}

/-- The walk stands between its ends on the ordinals `js`, among those of the
domain that are live. It counts `surplus` entries more than it will come by. -/
structure Spans (D : Domain κ) (p : Nat → Bool) (js : List Nat) (surplus : Nat) (w : Walk a) : Prop where
  stop_front : w.front.position.stop = D.count
  stop_back : w.back.position.stop = D.count
  front_le : w.front.position.index ≤ w.back.position.index
  back_le : w.back.position.index ≤ D.count
  front_live : w.front.position.index < w.back.position.index → p w.front.position.index = true
  back_live : w.back.position.index < D.count → p w.back.position.index = true
  ordinals : span p w.front.position.index w.back.position.index = js
  remaining : w.remaining = js.length + surplus

variable {p : Nat → Bool} {js : List Nat} {x : Nat} {w : Walk a}

theorem Spans.nodup (h : w.Spans D p js x) : js.Nodup := h.ordinals ▸ nodup_span p _ _

theorem Spans.isDone (h : w.Spans D p js x) : w.isDone = js.isEmpty := by
  have hSame : w.isDone = (w.front.position.index == w.back.position.index) := by
    simp [Walk.isDone, Skip.same, h.stop_front, h.stop_back]
  rw [hSame, ← h.ordinals]
  obtain hEq | hlt := h.front_le.eq_or_lt
  · rw [hEq, span_self]
    exact beq_self_eq_true _
  · have hMem : w.front.position.index ∈ span p w.front.position.index w.back.position.index :=
      mem_span.mpr ⟨le_rfl, hlt, h.front_live hlt⟩
    rw [beq_eq_false_iff_ne.mpr hlt.ne, Eq.comm, List.isEmpty_eq_false_iff]
    exact List.ne_nil_of_mem hMem

theorem ofTable_spans (h : t.Shows m) :
    ∃ w : Walk a, ofTable a t = .ok w ∧
      w.Spans D (fun i => (m i).isSome) (span (fun i => (m i).isSome) 0 D.count)
        (t.size - (span (fun i => (m i).isSome) 0 D.count).length) := by
  have hNext := h.liveFrom (Nat.zero_le D.count)
  have hSpan := hNext.span_eq hNext.le_stop
  have hLength : (span (fun i => (m i).isSome) 0 D.count).length ≤ t.size := by
    rw [← h.length_span]
    apply (List.subperm_of_subset (nodup_span _ _ _) ?_).length_le
    intro i hi
    obtain ⟨_, _, hLive⟩ := mem_span.mp hi
    exact h.mem_span.mpr ((h.holds i).trans hLive)
  refine ⟨{ front := D.position a (t.liveFrom 0), back := D.position a D.count, remaining := t.size }, ?_, ?_⟩
  · rw [ofTable, t.first_eq, t.pastLast_eq]
    rfl
  · exact {
      stop_front := rfl
      stop_back := rfl
      front_le := hNext.le_stop
      back_le := le_rfl
      front_live := hNext.reached
      back_live := fun hlt => absurd hlt (lt_irrefl D.count)
      ordinals := hSpan.symm
      remaining := by
        change t.size = _
        omega }

def Finds (D : Domain κ) (m : Nat → Option ν) (i : Nat) (e : Entry κ ν) : Prop :=
  e.ordinal = i ∧ D.values[i]? = some e.key ∧ m i = some e.value

theorem finds_of_entryAt (h : t.Shows m) {i : Nat} {e : Entry κ ν} (he : t.entryAt a i = .ok e) :
    Finds D m i e := by
  cases hi : m i with
  | none =>
    rw [t.entryAt_eq_error h hi] at he
    cases he
  | some v =>
    rw [t.entryAt_eq h hi] at he
    cases hKey : D.keyAt i with
    | error f =>
      rw [hKey] at he
      cases he
    | ok k =>
      rw [hKey] at he
      cases he
      exact ⟨rfl, Domain.keyAt_eq_ok.mp hKey, hi⟩

theorem keyAt_of_entryAt (h : t.Shows m) {i : Nat} (hi : (m i).isSome = true) {f : Fault}
    (he : t.entryAt a i = .error f) : D.keyAt i = .error f := by
  obtain ⟨v, hv⟩ := Option.isSome_iff_exists.mp hi
  rw [t.entryAt_eq h hv] at he
  cases hKey : D.keyAt i with
  | ok k =>
    rw [hKey] at he
    cases he
  | error g =>
    rw [hKey] at he
    cases he
    rfl

variable (D m) in
def Pulls (e : End) (js : List Nat) (x : Nat) (w : Walk a) (r : Option (Entry κ ν)) (u : Walk a) : Prop :=
  js = [] ∧ r = none ∧ u = w ∨
    ∃ i rest found, e.Takes js i rest ∧ r = some found ∧ Finds D m i found ∧
      u.Spans D (fun i => (m i).isSome) rest x

variable (D m) in
/-- How a pull may fault: its ordinal has no key, or the back cannot recede. -/
def Stops (e : End) (js : List Nat) (x : Nat) (f : Fault) (u : Walk a) : Prop :=
  ((∃ i ∈ js, D.keyAt i = .error f) ∨ f = .recededPastBegin ∧ D.count = beforeBegin) ∧
    ∃ rest, (rest = js ∨ ∃ i, e.Takes js i rest) ∧ u.Spans D (fun i => (m i).isSome) rest x

theorem ends_readFront {Q : Entry κ ν → Walk a → Prop} {E : Fault → Walk a → Prop}
    (hOk : ∀ e, t.entryAt a w.front.position.index = .ok e → Q e { w with front := w.front.map Skip.seek })
    (hError : ∀ f, t.entryAt a w.front.position.index = .error f →
      E f { w with front := w.front.map Skip.seek }) : Ends (readFront t) w Q E := by
  unfold Ends readFront Table.entry
  cases h : t.entryAt a w.front.position.index with
  | ok e => exact hOk e h
  | error f => exact hError f h

theorem ends_readBack {Q : Entry κ ν → Walk a → Prop} {E : Fault → Walk a → Prop}
    (hOk : ∀ e, t.entryAt a w.back.position.index = .ok e → Q e { w with back := w.back.map Skip.seek })
    (hError : ∀ f, t.entryAt a w.back.position.index = .error f →
      E f { w with back := w.back.map Skip.seek }) : Ends (readBack t) w Q E := by
  unfold Ends readBack Table.entry
  cases h : t.entryAt a w.back.position.index with
  | ok e => exact hOk e h
  | error f => exact hError f h

theorem ends_moveFront {front : Position a .forward} {Q : Unit → Walk a → Prop} {E : Fault → Walk a → Prop}
    (h : w.front.increment (t.motion a) = .ok front) : Ends (moveFront t) w Q E ↔ Q () { w with front } := by
  simp [Ends, moveFront, h]

theorem ends_moveBack {back : Position a .forward} {Q : Unit → Walk a → Prop} {E : Fault → Walk a → Prop}
    (h : w.back.decrement (t.motion a) = .ok back) : Ends (moveBack t) w Q E ↔ Q () { w with back } := by
  simp [Ends, moveBack, h]

theorem ends_moveBack_error {f : Fault} {Q : Unit → Walk a → Prop} {E : Fault → Walk a → Prop}
    (h : w.back.decrement (t.motion a) = .error f) : Ends (moveBack t) w Q E ↔ E f w := by
  simp [Ends, moveBack, h]

theorem ends_countDown {Q : Unit → Walk a → Prop} {E : Fault → Walk a → Prop} {n : Nat}
    (h : w.remaining = n + 1) : Ends countDown w Q E ↔ Q () { w with remaining := n } := by
  simp [Ends, countDown, h]

theorem Spans.seekFront (h : w.Spans D p js x) :
    Spans D p js x { w with front := w.front.map Skip.seek } :=
  ⟨h.stop_front, h.stop_back, h.front_le, h.back_le, h.front_live, h.back_live, h.ordinals, h.remaining⟩

theorem Spans.seekBack (h : w.Spans D p js x) :
    Spans D p js x { w with back := w.back.map Skip.seek } :=
  ⟨h.stop_front, h.stop_back, h.front_le, h.back_le, h.front_live, h.back_live, h.ordinals, h.remaining⟩

/-- While something is left of a walk, its front stands on it. -/
theorem Spans.front_lt (h : w.Spans D p js x) (hjs : js ≠ []) :
    w.front.position.index < w.back.position.index := by
  obtain hEq | hlt := h.front_le.eq_or_lt
  · rw [← h.ordinals, hEq, span_self] at hjs
    exact absurd rfl hjs
  · exact hlt

/-- The front moves to the second of the ordinals that are left. -/
theorem Spans.advance (h : t.Shows m) (hw : w.Spans D (fun i => (m i).isSome) js x) (hjs : js ≠ []) :
    ∃ rest front, js = w.front.position.index :: rest ∧ w.front.increment (t.motion a) = .ok front ∧
      ∀ n, n = rest.length + x →
        Spans D (fun i => (m i).isSome) rest x { w with front, remaining := n } := by
  have hlt := hw.front_lt hjs
  have hCount := hlt.trans_le hw.back_le
  have hNext := h.liveFrom (Nat.succ_le_of_lt hCount)
  -- the next entry cannot lie behind the back, which is an entry itself or past them all
  have hle : t.liveFrom (w.front.position.index + 1) ≤ w.back.position.index := by
    obtain hgt | hle := Nat.lt_or_ge w.back.position.index (t.liveFrom (w.front.position.index + 1))
    · have hDead := hNext.skipped w.back.position.index hlt hgt
      rw [hw.back_live (hgt.trans_le hNext.le_stop)] at hDead
      cases hDead
    · exact hle
  have hSpan := hNext.span_eq_cons (hw.front_live hlt) hle
  rw [hw.ordinals] at hSpan
  refine ⟨_, _, hSpan, t.increment_eq hw.stop_front hCount, fun n hn => ?_⟩
  exact {
    stop_front := hw.stop_front
    stop_back := hw.stop_back
    front_le := hle
    back_le := hw.back_le
    front_live := fun hFront => hNext.reached (hFront.trans_le hw.back_le)
    back_live := hw.back_live
    ordinals := rfl
    remaining := hn }

/-- The back moves to the last of the ordinals that are left. -/
theorem Spans.recede (h : t.Shows m) (hw : w.Spans D (fun i => (m i).isSome) js x) (hjs : js ≠ []) :
    (w.back.decrement (t.motion a) = .error .recededPastBegin ∧ D.count = beforeBegin) ∨
      ∃ rest back, js = rest ++ [back.position.index] ∧ w.back.decrement (t.motion a) = .ok back ∧
        (m back.position.index).isSome = true ∧
        ∀ n, n = rest.length + x →
          Spans D (fun i => (m i).isSome) rest x { w with back, remaining := n } := by
  have hlt := hw.front_lt hjs
  have hBound : D.count ≤ beforeBegin := by
    have hCount := D.count_lt
    rw [beforeBegin]
    omega
  by_cases hBegin : w.back.position.index = beforeBegin
  · left
    constructor
    · exact t.decrement_eq_error hBegin
    · exact le_antisymm hBound (hBegin ▸ hw.back_le)
  · right
    have hFront := hw.front_live hlt
    have hIsPrev := h.prev w.back.position.index
    cases hPrev : t.occupancy.prev? w.back.position.index with
    | none =>
      rw [hPrev] at hIsPrev
      exact absurd hFront (Bool.eq_false_iff.mp (hIsPrev _ hlt))
    | some k =>
      rw [hPrev] at hIsPrev
      obtain ⟨hk, hLive, hSkipped⟩ := hIsPrev
      have hle : w.front.position.index ≤ k := by
        by_contra hgt
        exact absurd hFront (Bool.eq_false_iff.mp (hSkipped _ (Nat.lt_of_not_le hgt) hlt))
      have hSpan : js = span (fun i => (m i).isSome) w.front.position.index k ++ [k] := by
        rw [← hw.ordinals]
        exact IsPrev.span_eq_append ⟨hk, hLive, hSkipped⟩ hle
      have hMove := t.decrement_eq (p := w.back) (hw.back_le.trans_eq hw.stop_back.symm) hBegin hPrev
      refine ⟨_, _, hSpan, hMove, hLive, fun n hn => ?_⟩
      exact {
        stop_front := hw.stop_front
        stop_back := hw.stop_back
        front_le := hle
        back_le := hk.le.trans hw.back_le
        front_live := fun _ => hw.front_live hlt
        back_live := fun _ => hLive
        ordinals := rfl
        remaining := hn }

theorem next_ends (h : t.Shows m) (hw : w.Spans D (fun i => (m i).isSome) js x) :
    Ends (next t) w (Pulls D m .front js x w) (Stops D m .front js x) := by
  rw [next, ends_get_bind, hw.isDone]
  by_cases hjs : js = []
  · subst hjs
    exact .inl ⟨rfl, rfl, rfl⟩
  · rw [List.isEmpty_eq_false_iff.mpr hjs]
    obtain ⟨rest, front, hRest, hMove, hSpans⟩ := hw.seekFront.advance h hjs
    have hLive := hw.front_live (hw.front_lt hjs)
    refine ends_bind.mpr (ends_readFront ?_ ?_)
    · intro found hEntry
      rw [ends_bind, ends_moveFront hMove, ends_bind, ends_countDown (n := rest.length + x)]
      · have hFinds := finds_of_entryAt h hEntry
        exact .inr ⟨_, rest, found, hRest, rfl, hFinds, hSpans _ rfl⟩
      · rw [hw.remaining, hRest, List.length_cons]
        omega
    · intro f hEntry
      have hKey := keyAt_of_entryAt h hLive hEntry
      have hMem : w.front.position.index ∈ js := by
        rw [hRest]
        exact List.mem_cons_self
      exact ⟨.inl ⟨_, hMem, hKey⟩, js, .inl rfl, hw.seekFront⟩

theorem nextBack_ends (h : t.Shows m) (hw : w.Spans D (fun i => (m i).isSome) js x) :
    Ends (nextBack t) w (Pulls D m .back js x w) (Stops D m .back js x) := by
  rw [nextBack, ends_get_bind, hw.isDone]
  by_cases hjs : js = []
  · subst hjs
    exact .inl ⟨rfl, rfl, rfl⟩
  · rw [List.isEmpty_eq_false_iff.mpr hjs]
    obtain ⟨hMove, hCount⟩ | ⟨rest, back, hRest, hMove, hLive, hSpans⟩ := hw.recede h hjs
    · refine ends_bind.mpr ((ends_moveBack_error hMove).mpr ?_)
      exact ⟨.inr ⟨rfl, hCount⟩, js, .inl rfl, hw⟩
    · have hRemaining : w.remaining = rest.length + x + 1 := by
        rw [hw.remaining, hRest, List.length_append, List.length_singleton]
        omega
      have hRests := hSpans _ rfl
      refine ends_bind.mpr ((ends_moveBack hMove).mpr (ends_bind.mpr ?_))
      refine (ends_countDown (w := { w with back }) hRemaining).mpr (ends_bind.mpr (ends_readBack ?_ ?_))
      · intro found hEntry
        have hFinds := finds_of_entryAt h hEntry
        exact .inr ⟨_, rest, found, hRest, rfl, hFinds, hRests.seekBack⟩
      · intro f hEntry
        have hKey := keyAt_of_entryAt h hLive hEntry
        have hMem : back.position.index ∈ js := by
          rw [hRest]
          exact List.mem_append_right rest List.mem_cons_self
        exact ⟨.inl ⟨_, hMem, hKey⟩, rest, .inr ⟨_, hRest⟩, hRests.seekBack⟩

theorem pull_ends (h : t.Shows m) (hw : w.Spans D (fun i => (m i).isSome) js x) (e : End) :
    Ends ((ends t).pull e) w (Pulls D m e js x w) (Stops D m e js x) := by
  cases e with
  | front => exact next_ends h hw
  | back => exact nextBack_ends h hw

end Walk

end OrdinalMap
