import OrdinalMap.Proofs.Table.Standing
import Mathlib.Data.List.Forall2

/-! # From one end of a table to the other

A sweep steps a cursor until it is where another one stands, and reads the entries
on its way. From the first entry a forward cursor comes by all entries as they are
listed, and from the last one a reverse cursor comes by them in reverse.
-/

namespace OrdinalMap

set_option autoImplicit false

variable {κ ν : Type} {D : Domain κ} {a : Access} {d : Direction} {t : Table D ν} {m : Nat → Option ν}

namespace Walk

variable {js : List Nat} {x : Nat} {w : Walk a}

theorem collect_front (hD : D.Lawful) (h : t.Shows m) (hw : w.Spans D (fun i => (m i).isSome) js x)
    {limit : Nat} (hLimit : js.length < limit) :
    Ends ((ends t).collect .front limit) w (fun es _ => List.Forall₂ (Finds D m) js es) (fun _ _ => False) := by
  induction limit generalizing js w with
  | zero => omega
  | succ limit ih =>
    apply (pull_lawful hD h hw .front).bind
    · rintro r u (⟨rfl, rfl, rfl⟩ | ⟨i, rest, found, hTakes, rfl, hFinds, hu⟩)
      · exact .nil
      · obtain rfl : js = i :: rest := hTakes
        apply (ih hu (by simpa using hLimit)).bind
        · exact fun es _ hes => .cons hFinds hes
        · exact fun _ _ => False.elim
    · exact fun _ _ => False.elim

end Walk

namespace Table

theorem entries_found (hD : D.Lawful) (ht : t.Sound) :
    ∃ es, t.entries = .ok es ∧
      List.Forall₂ (Walk.Finds D t.live) (span (fun i => (t.live i).isSome) 0 D.count) es := by
  obtain ⟨w, hOf, hw⟩ := Walk.ofTable_spans (a := .readOnly) ht.shows
  have hLimit : (span (fun i => (t.live i).isSome) 0 D.count).length < w.remaining + 1 := by
    rw [hw.remaining]
    omega
  obtain ⟨es, u, hRun, hes⟩ | ⟨_, _, _, hFalse⟩ := (Walk.collect_front hD ht.shows hw hLimit).ran
  · refine ⟨es, ?_, hes⟩
    have hDrain : (Walk.ends t).drain .front w = .ok es u := hRun
    simp only [entries, hOf, bind, Except.bind, hDrain]
    rfl
  · cases hFalse

theorem entry_of_finds (h : t.Shows m) {p : Position a d} {e : Entry κ ν}
    (hFinds : Walk.Finds D m p.position.index e) : t.entry p = (.ok e, p.map Skip.seek) := by
  obtain ⟨hOrdinal, hKey, hValue⟩ := hFinds
  rw [entry, entryAt_eq h hValue, Domain.keyAt_eq_ok.mpr hKey, ← hOrdinal]
  rfl

/-- Stepping from a cursor until it is the same as `stop`, and reading before each
step, visits these entries. There is one increment for each of them. -/
inductive Sweeps (t : Table D ν) (stop : Position a d) : Position a d → List (Entry κ ν) → Prop
  | arrived {p : Position a d} (hSame : p.position.same stop.position = true) : Sweeps t stop p []
  | visit {p read q : Position a d} {e : Entry κ ν} {es : List (Entry κ ν)}
    (hOn : p.position.same stop.position = false) (hEntry : t.entry p = (.ok e, read))
    (hNext : read.increment (t.motion a) = .ok q) (hRest : Sweeps t stop q es) : Sweeps t stop p (e :: es)

theorem Sweeps.unique {stop p : Position a d} {es es' : List (Entry κ ν)} (h : t.Sweeps stop p es)
    (h' : t.Sweeps stop p es') : es = es' := by
  induction h generalizing es' with
  | arrived hSame =>
    cases h' with
    | arrived => rfl
    | visit hOn => simp [hSame] at hOn
  | visit hOn hEntry hNext _ ih =>
    cases h' with
    | arrived hSame => simp [hSame] at hOn
    | visit _ hEntry' hNext' hRest' =>
      rw [hEntry, Prod.mk.injEq, Except.ok.injEq] at hEntry'
      obtain ⟨rfl, rfl⟩ := hEntry'
      rw [hNext, Except.ok.injEq] at hNext'
      subst hNext'
      rw [ih hRest']

theorem sweeps_walk (h : t.Shows m) {js : List Nat} {es : List (Entry κ ν)} {x : Nat} {w : Walk a}
    (hw : w.Spans D (fun i => (m i).isSome) js x) (hFinds : List.Forall₂ (Walk.Finds D m) js es) :
    t.Sweeps w.back w.front es := by
  induction hFinds generalizing w with
  | nil => exact .arrived hw.isDone
  | @cons i e js es hFound _ ih =>
    obtain ⟨rest, front, hRest, hMove, hSpans⟩ := hw.seekFront.advance h (List.cons_ne_nil i js)
    obtain ⟨rfl, rfl⟩ := List.cons_eq_cons.mp hRest
    exact .visit hw.isDone (entry_of_finds h hFound) hMove (ih (hSpans _ rfl))

/-- A reverse cursor below `i` comes by the entries below `i` from the last to the first. -/
theorem sweeps_reverse (hD : D.Lawful) (h : t.Shows m) {js : List Nat} {es : List (Entry κ ν)}
    (hFinds : List.Forall₂ (Walk.Finds D m) js es) {i : Nat} (hi : i ≤ D.count)
    (hSpan : (span (fun i => (m i).isSome) 0 i).reverse = js) (sought : Nat) :
    t.Sweeps (⟨{ index := beforeBegin, stop := D.count }⟩ : Position a .reverse)
      ⟨{ index := (t.occupancy.prev? i).getD beforeBegin, stop := D.count, sought }⟩ es := by
  induction hFinds generalizing i sought with
  | nil =>
    rw [List.reverse_eq_nil_iff] at hSpan
    have hIsPrev := h.prev i
    cases hPrev : t.occupancy.prev? i with
    | none => exact .arrived (by simp [Skip.same])
    | some k =>
      rw [hPrev] at hIsPrev
      simp [hIsPrev.span_eq_append (Nat.zero_le k)] at hSpan
  | @cons j e js es hFound _ ih =>
    have hIsPrev := h.prev i
    cases hPrev : t.occupancy.prev? i with
    | none =>
      rw [hPrev] at hIsPrev
      simp [hIsPrev.span_eq_nil] at hSpan
    | some k =>
      rw [hPrev] at hIsPrev
      have hk : k < i := hIsPrev.1
      rw [hIsPrev.span_eq_append (Nat.zero_le k), List.reverse_append, List.reverse_singleton,
        List.singleton_append] at hSpan
      obtain ⟨rfl, hRest⟩ := List.cons_eq_cons.mp hSpan
      have hle : k ≤ D.count := hk.le.trans hi
      have hIndex : k ≠ beforeBegin := (hle.trans_lt hD.count_lt).ne
      have hPlaced : Skip.Placed (a := a) { index := k, stop := D.count, sought := k } := ⟨hD.count_lt, .inl hle⟩
      refine .visit ?_ (entry_of_finds h hFound) ?_ (ih hle hRest k)
      · simp [Skip.same, hIndex]
      · exact congrArg (Except.map _) (Skip.recede_eq t.occupancy.selection hPlaced hIndex)

theorem exists_sweeps (hD : D.Lawful) (ht : t.Sound) :
    ∃ es, t.entries = .ok es ∧ es.length = t.size ∧ ∀ a : Access,
      (∃ p stop, t.first a = .ok p ∧ t.pastLast a = .ok stop ∧ t.Sweeps stop p es) ∧
      ∃ p stop, t.last a = .ok p ∧ t.beforeFirst a = .ok stop ∧ t.Sweeps stop p es.reverse := by
  obtain ⟨es, hEntries, hFinds⟩ := entries_found hD ht
  have hLength : es.length = t.size := by rw [← hFinds.length_eq, Walk.length_span_holds hD ht]
  refine ⟨es, hEntries, hLength, fun a => ⟨?_, ?_⟩⟩
  · obtain ⟨w, hOf, hw⟩ := Walk.ofTable_spans (a := a) ht.shows
    rw [Walk.ofTable, first_eq, pastLast_eq] at hOf
    cases hOf
    exact ⟨_, _, t.first_eq, t.pastLast_eq, sweeps_walk ht.shows hw hFinds⟩
  · have hBefore := t.positionAt_reverse (a := a) hD (Nat.zero_le D.count)
    have hNone : t.occupancy.prev? 0 = none := by simp [Bitmap.prev?]
    rw [hNone] at hBefore
    have hSweeps := sweeps_reverse (a := a) hD ht.shows (List.forall₂_reverse_iff.mpr hFinds) le_rfl rfl 0
    exact ⟨_, _, t.positionAt_reverse hD le_rfl, hBefore, hSweeps⟩

end Table

end OrdinalMap
