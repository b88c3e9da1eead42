import OrdinalMap.Proofs.Ends
import OrdinalMap.Proofs.Selection

/-! # Steps between the matches

A position may be placed on any index up to its bound. Each step takes it to the
nearest match in its direction, to the bound, or before the first index, so after
one step there is nowhere else that it can be, and steps there undo each other.
-/

namespace OrdinalMap

set_option autoImplicit false

namespace Skip

variable {a : Access} {sel : Selection} {p q : Skip a}

def OnMatch (sel : Selection) (p : Skip a) : Prop := p.index < p.stop ∧ sel.test p.index = true

def Landed (sel : Selection) (p : Skip a) : Prop :=
  p.OnMatch sel ∨ p.index = p.stop ∨ p.index = beforeBegin

/-- The matches after a position. Before the first index, these are all of them. -/
def ahead (sel : Selection) (p : Skip a) : Set Nat :=
  {j | j < p.stop ∧ sel.test j = true ∧ (p.index = beforeBegin ∨ p.index < j)}

def behind (sel : Selection) (p : Skip a) : Set Nat := {j | j < p.index ∧ sel.test j = true}

structure Placed (p : Skip a) : Prop where
  stop_lt : p.stop < beforeBegin
  index_le : p.index ≤ p.stop ∨ p.index = beforeBegin

theorem Landed.placed (h : p.Landed sel) (hStop : p.stop < beforeBegin) : p.Placed where
  stop_lt := hStop
  index_le := by
    obtain ⟨hlt, -⟩ | hEq | hBefore := h
    · exact .inl hlt.le
    · exact .inl hEq.le
    · exact .inr hBefore

theorem Placed.stop_lt_indexBound (h : p.Placed) : p.stop < indexBound := by
  have hStop := h.stop_lt
  simp only [beforeBegin] at hStop
  omega

theorem Placed.nextIndex_le (h : p.Placed) (j : Nat) (hj : j < p.stop) :
    min (nextIndex p.index) p.stop ≤ j ↔ p.index = beforeBegin ∨ p.index < j := by
  obtain hle | hBefore := h.index_le
  · have hlt := hle.trans_lt h.stop_lt
    rw [nextIndex_of_lt hlt]
    omega
  · rw [hBefore, nextIndex_beforeBegin]
    simp

theorem advance_next (hSel : sel.ScansLinearly) (h : p.Placed) :
    IsNext sel.test (min (nextIndex p.index) p.stop) p.stop (p.advance sel).index := by
  unfold advance
  dsimp only
  split
  · rename_i hlt
    rw [min_eq_left hlt.le]
    exact hSel.next h.stop_lt_indexBound hlt.le
  · rename_i hge
    rw [min_eq_right (Nat.le_of_not_lt hge)]
    exact isNext_stop sel.test p.stop

theorem Placed.index_lt_indexBound (h : p.Placed) : p.index < indexBound := by
  obtain hle | hBefore := h.index_le
  · exact hle.trans_lt h.stop_lt_indexBound
  · rw [hBefore]
    decide

theorem Placed.index_le_stop (h : p.Placed) (hIndex : p.index ≠ beforeBegin) : p.index ≤ p.stop :=
  h.index_le.resolve_right hIndex

theorem recede_eq (sel : Selection) (h : p.Placed) (hIndex : p.index ≠ beforeBegin) :
    p.recede sel = .ok { p with index := (sel.prev? p.index).getD beforeBegin } := by
  rw [recede, if_neg hIndex, min_eq_left (h.index_le_stop hIndex)]

theorem recede_prev (hSel : sel.ScansLinearly) (h : p.Placed) : IsPrev sel.test p.index (sel.prev? p.index) :=
  hSel.prev h.index_lt_indexBound

theorem ahead_eq (h : p.Placed) :
    p.ahead sel = {j | j < p.stop ∧ sel.test j = true ∧ min (nextIndex p.index) p.stop ≤ j} := by
  ext j
  apply and_congr_right
  intro hj
  rw [h.nextIndex_le j hj]

theorem advance_isLeast (hSel : sel.ScansLinearly) (h : p.Placed) :
    IsLeast (p.ahead sel) (p.advance sel).index ∨ p.ahead sel = ∅ ∧ (p.advance sel).index = p.stop := by
  rw [ahead_eq h]
  exact (advance_next hSel h).isLeast

theorem recede_isGreatest (hSel : sel.ScansLinearly) (h : p.Placed) :
    IsGreatest (p.behind sel) ((sel.prev? p.index).getD beforeBegin) ∨
      p.behind sel = ∅ ∧ (sel.prev? p.index).getD beforeBegin = beforeBegin :=
  (recede_prev hSel h).isGreatest beforeBegin

theorem advance_landed (hSel : sel.ScansLinearly) (h : p.Placed) : (p.advance sel).Landed sel := by
  obtain ⟨⟨hlt, hMatch, -⟩, -⟩ | ⟨-, hStop⟩ := advance_isLeast hSel h
  · exact .inl ⟨hlt, hMatch⟩
  · exact .inr (.inl hStop)

theorem recede_landed (hSel : sel.ScansLinearly) (h : p.Placed) (hq : p.recede sel = .ok q) :
    q.stop = p.stop ∧ q.Landed sel := by
  have hIndex : p.index ≠ beforeBegin := by
    intro hBefore
    rw [recede, if_pos hBefore] at hq
    cases hq
  rw [recede_eq sel h hIndex, Except.ok.injEq] at hq
  subst hq
  refine ⟨rfl, ?_⟩
  obtain ⟨⟨hlt, hMatch⟩, -⟩ | ⟨-, hBefore⟩ := recede_isGreatest hSel h
  · exact .inl ⟨hlt.trans_le (h.index_le_stop hIndex), hMatch⟩
  · exact .inr (.inr hBefore)

theorem eq_of_index {q : Skip a} (hStop : q.stop = p.stop) (hSought : q.sought = p.sought)
    (hIndex : (q.advance sel).index = p.index) : q.advance sel = p := by
  obtain ⟨index, stop, sought⟩ := p
  obtain rfl : q.stop = stop := hStop
  obtain rfl : q.sought = sought := hSought
  exact congrArg (fun i => { q with index := i }) hIndex

/-- Receding skips no match: the next match after where it leads is the first one
from the index on that it began at, whether or not that is a match. -/
theorem recede_next (hSel : sel.ScansLinearly) (h : p.Placed) (hIndex : p.index ≤ p.stop) :
    ∃ q, p.recede sel = .ok q ∧ q.stop = p.stop ∧ q.sought = p.sought ∧ q.Placed ∧
      IsNext sel.test p.index p.stop (q.advance sel).index := by
  have hPrev := recede_prev hSel h
  have hRecede := recede_eq sel h (hIndex.trans_lt h.stop_lt).ne
  have hPlaced := (recede_landed hSel h hRecede).2.placed h.stop_lt
  refine ⟨_, hRecede, rfl, rfl, hPlaced, ?_⟩
  have hNext := advance_next hSel hPlaced
  have hSkipped : ∀ j, min (nextIndex ((sel.prev? p.index).getD beforeBegin)) p.stop ≤ j → j < p.index →
      sel.test j = false := by
    intro j hj hlt
    exact hPrev.skipped (hIndex.trans h.stop_lt.le) hlt ((hPlaced.nextIndex_le j (hlt.trans_le hIndex)).mp hj)
  refine ⟨?_, hNext.le_stop, ?_, hNext.reached⟩
  · by_contra hlt
    have hlt := Nat.lt_of_not_le hlt
    have hMatch := hNext.reached (hlt.trans_le hIndex)
    rw [hSkipped _ hNext.start_le hlt] at hMatch
    cases hMatch
  · intro j hj hlt
    refine hNext.skipped j (le_trans ?_ hj) hlt
    obtain hBelow | hEq := Nat.lt_or_eq_of_le hIndex
    · exact (hPlaced.nextIndex_le p.index hBelow).mpr (hPrev.lt_or_eq beforeBegin)
    · rw [hEq]
      exact min_le_right _ _

/-- Advancing undoes receding where the position was a match or the bound. -/
theorem advance_recede (hSel : sel.ScansLinearly) (h : p.Placed) (hAt : p.OnMatch sel ∨ p.index = p.stop) :
    ∃ q, p.recede sel = .ok q ∧ q.advance sel = p := by
  have hle : p.index ≤ p.stop := hAt.elim (fun hMatch => hMatch.1.le) Eq.le
  obtain ⟨q, hRecede, hStop, hSought, -, hNext⟩ := recede_next hSel h hle
  refine ⟨q, hRecede, ?_⟩
  have hSelf : IsNext sel.test p.index p.stop p.index := by
    refine ⟨le_rfl, hle, fun i hi hlt => absurd hi (Nat.not_le.mpr hlt), fun hlt => ?_⟩
    obtain hMatch | hEq := hAt
    · exact hMatch.2
    · exact absurd hEq hlt.ne
  exact eq_of_index hStop hSought (hNext.unique hSelf)

/-- Receding undoes advancing where the position was a match or before the first index. -/
theorem recede_advance (hSel : sel.ScansLinearly) (h : p.Placed)
    (hAt : p.OnMatch sel ∨ p.index = beforeBegin) : (p.advance sel).recede sel = .ok p := by
  have hNext := advance_next hSel h
  have hPlaced := (advance_landed hSel h).placed h.stop_lt
  have hIndex : (p.advance sel).index ≠ beforeBegin := (hNext.le_stop.trans_lt h.stop_lt).ne
  have hPrev := recede_prev hSel hPlaced
  have hSkipped : ∀ i < (p.advance sel).index, (p.index = beforeBegin ∨ p.index < i) → sel.test i = false := by
    intro i hi hAfter
    exact hNext.skipped i ((h.nextIndex_le i (hi.trans_le hNext.le_stop)).mpr hAfter) hi
  -- before the first index there is no match to go back to, and the default leads there
  have hBack : (sel.prev? (p.advance sel).index).getD beforeBegin = p.index := by
    obtain ⟨hlt, hMatch⟩ | hBefore := hAt
    · have hAhead : p.index < (p.advance sel).index := by
        have hStart := hNext.start_le
        rw [nextIndex_of_lt (hlt.trans h.stop_lt)] at hStart
        omega
      have hSome : IsPrev sel.test (p.advance sel).index (some p.index) :=
        ⟨hAhead, hMatch, fun i hi hlt => hSkipped i hlt (.inr hi)⟩
      rw [hPrev.unique hSome]
      rfl
    · have hNone : IsPrev sel.test (p.advance sel).index none := fun i hi => hSkipped i hi (.inl hBefore)
      rw [hPrev.unique hNone, hBefore]
      rfl
  rw [recede_eq sel hPlaced hIndex, hBack]
  rfl

theorem act_advance (sel : Selection) (p : Skip a) : (motion sel).act .advance p = .ok () (p.advance sel) := rfl

theorem act_recede (h : p.recede sel = .ok q) : (motion sel).act .recede p = .ok () q := by
  simp [Motion.act, motion, change, h]

theorem act_recede_error (h : p.index = beforeBegin) :
    (motion sel).act .recede p = .error .recededPastBegin p := by
  simp [Motion.act, motion, change, recede, h]

theorem act_lands (hSel : sel.ScansLinearly) (h : p.Placed) (s : Step) :
    Ends ((motion sel).act s) p (fun _ q => q.stop = p.stop ∧ q.Landed sel)
      fun _ q => q.stop = p.stop ∧ q.Landed sel := by
  cases s with
  | advance => exact ⟨rfl, advance_landed hSel h⟩
  | recede =>
    apply ends_change
    · exact fun q hq => recede_landed hSel h hq
    · intro f hf
      by_cases hBefore : p.index = beforeBegin
      · exact ⟨rfl, .inr (.inr hBefore)⟩
      · rw [show (motion sel).recede p = _ from recede_eq sel h hBefore] at hf
        cases hf

theorem locate_placed {place : Placement} {stop : Nat} (hStop : stop < beforeBegin)
    (h : place.locate sel stop = .ok p) : p.stop = stop ∧ p.Placed := by
  have hOfIndex : ∀ {index}, ofIndex index stop = .ok p → p.stop = stop ∧ p.Placed := by
    intro index h
    unfold ofIndex at h
    split at h
    · rename_i hle
      cases h
      exact ⟨rfl, hStop, .inl hle⟩
    · cases h
  cases place with
  | exactly index => exact hOfIndex h
  | firstFrom start => exact hOfIndex h

/-- What the steps from a position do: where they lead, which of them fault, and
which are undone by the other. -/
structure Exact (sel : Selection) (p : Skip a) : Prop where
  advances : ∃ q, (motion sel).act .advance p = .ok () q ∧ q.stop = p.stop ∧
    (IsLeast (p.ahead sel) q.index ∨ p.ahead sel = ∅ ∧ q.index = p.stop)
  stays : p.index = p.stop → (motion sel).act .advance p = .ok () p
  recedes : p.index ≠ beforeBegin → ∃ q, (motion sel).act .recede p = .ok () q ∧ q.stop = p.stop ∧
    (IsGreatest (p.behind sel) q.index ∨ p.behind sel = ∅ ∧ q.index = beforeBegin)
  refuses : p.index = beforeBegin → (motion sel).act .recede p = .error .recededPastBegin p
  advanced_back : p.OnMatch sel ∨ p.index = p.stop →
    ∃ q, (motion sel).act .recede p = .ok () q ∧ (motion sel).act .advance q = .ok () p
  receded_back : p.OnMatch sel ∨ p.index = beforeBegin →
    ∃ q, (motion sel).act .advance p = .ok () q ∧ (motion sel).act .recede q = .ok () p

theorem advance_stop (h : p.Placed) (hIndex : p.index = p.stop) : p.advance sel = p := by
  have hNext := nextIndex_of_lt (hIndex.trans_lt h.stop_lt)
  rw [advance, hNext, if_neg (by omega)]
  exact congrArg (fun i => { p with index := i }) hIndex.symm

theorem Placed.exact (hSel : sel.ScansLinearly) (h : p.Placed) : p.Exact sel where
  advances := ⟨_, act_advance sel p, rfl, advance_isLeast hSel h⟩
  stays hIndex := by rw [act_advance, advance_stop h hIndex]
  recedes hIndex := ⟨_, act_recede (recede_eq sel h hIndex), rfl, recede_isGreatest hSel h⟩
  refuses := act_recede_error
  advanced_back hAt := by
    obtain ⟨q, hRecede, hAdvance⟩ := advance_recede hSel h hAt
    exact ⟨q, act_recede hRecede, by rw [act_advance, hAdvance]⟩
  receded_back hAt := ⟨_, act_advance sel p, act_recede (recede_advance hSel h hAt)⟩

/-- However a position is moved after it was created, its steps are exact; and after
the first of them it is on a match, on the bound, or before the first index. -/
theorem course_exact (hSel : sel.ScansLinearly) {stop : Nat} (hStop : stop < beforeBegin) {place : Placement}
    {start : Skip a} (hStart : place.locate sel stop = .ok start) (steps : List Step) :
    let p := (course (motion sel).act steps start).2
    p.stop = stop ∧ (steps ≠ [] → p.Landed sel) ∧ p.Exact sel := by
  intro p
  obtain ⟨rfl, hPlaced⟩ := locate_placed hStop hStart
  have hAct : ∀ s (q : Skip a), q.stop = start.stop ∧ q.Placed →
      Ends ((motion sel).act s) q (fun _ u => u.stop = start.stop ∧ u.Landed sel)
        fun _ u => u.stop = start.stop ∧ u.Landed sel := by
    rintro s q ⟨hSame, hq⟩
    rw [← hSame]
    exact act_lands hSel hq s
  have hKept : ∀ q : Skip a, q.stop = start.stop ∧ q.Landed sel → q.stop = start.stop ∧ q.Placed :=
    fun q ⟨hSame, hq⟩ => ⟨hSame, hq.placed (hSame ▸ hStop)⟩
  have hLanded : steps ≠ [] → p.stop = start.stop ∧ p.Landed sel := by
    intro hNonempty
    exact course_reaches hAct hKept hNonempty ⟨rfl, hPlaced⟩
  have hLast : p.stop = start.stop ∧ p.Placed := by
    by_cases hEmpty : steps = []
    · simp only [p, hEmpty]
      exact ⟨rfl, hPlaced⟩
    · exact hKept p (hLanded hEmpty)
  exact ⟨hLast.1, fun hNonempty => (hLanded hNonempty).2, hLast.2.exact hSel⟩

/-- From an odd index, back past the first even one. -/
theorem course_exact_even :
    let sel := Selection.linear fun i => i % 2 == 0
    let start : Skip .readOnly := { index := 3, stop := 5 }
    let p := (course (motion sel).act [.recede, .recede, .recede, .recede] start).2
    sel.ScansLinearly ∧ 5 < beforeBegin ∧ (Placement.exactly 3).locate sel 5 = .ok start ∧
      p.index = beforeBegin ∧ p.Landed sel ∧ p.Exact sel := by
  intro sel start p
  have hSel := Selection.scansLinearly_linear fun i => i % 2 == 0
  have hStop : 5 < beforeBegin := by decide
  have hStart : (Placement.exactly 3).locate sel 5 = .ok start := rfl
  obtain ⟨-, hLanded, hExact⟩ := course_exact hSel hStop hStart [.recede, .recede, .recede, .recede]
  exact ⟨hSel, hStop, hStart, by decide, hLanded nofun, hExact⟩

@[simp]
theorem same_self (p : Skip a) : p.same p = true := by simp [same]

end Skip

/-- A cursor that was moved is on a match, on the bound, or before the first index. -/
theorem Cursor.move_landed {a : Access} {d : Direction} {sel : Selection} (hSel : sel.ScansLinearly)
    {c e : Cursor (Skip a) d} (h : c.position.Placed) {mv : Move} (he : Cursor.move (Skip.motion sel) mv c = .ok e) :
    e.position.stop = c.position.stop ∧ e.position.Landed sel := by
  rw [move_eq] at he
  cases hStep : mv.step d with
  | advance =>
    rw [hStep, Except.ok.injEq] at he
    subst he
    exact ⟨rfl, Skip.advance_landed hSel h⟩
  | recede =>
    rw [hStep] at he
    cases hRecede : c.position.recede sel with
    | ok q =>
      simp only [Skip.motion, hRecede, Except.map, Except.ok.injEq] at he
      subst he
      exact Skip.recede_landed hSel h hRecede
    | error f =>
      simp only [Skip.motion, hRecede, Except.map] at he
      cases he

namespace Bitmap

variable {n : Nat}

/-- The scans of a bitmap and the linear ones find the same, and cursors that go by
them cannot be told apart: not where they are created, at which moves they fault, or
where they are after any of them. -/
theorem selection_agrees (b : Bitmap n) :
    (∀ start stop, b.selection.next start stop = (Selection.linear b.contains).next start stop) ∧
    (∀ before, b.selection.prev? before = (Selection.linear b.contains).prev? before) ∧
    ∀ (a : Access) (d : Direction) (place : Placement) (stop : Nat),
      let made : Except Fault (Cursor (Skip a) d) := place.cursor b.selection stop
      let made' : Except Fault (Cursor (Skip a) d) := place.cursor (Selection.linear b.contains) stop
      (∃ f, made = .error f ∧ made' = .error f) ∨
        ∃ c c', made = .ok c ∧ made' = .ok c' ∧ ∀ moves : List Move,
          let run := course (Cursor.act (Skip.motion b.selection)) moves c
          let run' := course (Cursor.act (Skip.motion (Selection.linear b.contains))) moves c'
          run.1 = run'.1 ∧ run.2.position.index = run'.2.position.index ∧
            run.2.position.same run'.2.position = true := by
  rw [← b.selection_eq_linear]
  refine ⟨fun _ _ => rfl, fun _ => rfl, ?_⟩
  intro a d place stop made made'
  have hSame : made' = made := rfl
  rw [hSame]
  cases made with
  | error f => exact .inl ⟨f, rfl, rfl⟩
  | ok c => exact .inr ⟨c, c, rfl, rfl, fun moves => ⟨rfl, rfl, Skip.same_self _⟩⟩

end Bitmap

end OrdinalMap
