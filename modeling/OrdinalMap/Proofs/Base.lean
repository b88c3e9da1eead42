import OrdinalMap.Proofs.Skip
import OrdinalMap.Proofs.Table.Position

/-! # The base of a reverse cursor

A reverse cursor stands one match before the position it was given. Its base goes
back over that step, to the first match from the given position on, however many
indices the step had skipped; and each step of the cursor is the opposite step of
its base.
-/

namespace OrdinalMap

set_option autoImplicit false

variable {a : Access} {sel : Selection} {stop i : Nat}

namespace Skip

theorem firstFrom_next (hSel : sel.ScansLinearly) (hStop : stop < beforeBegin) (hi : i ≤ stop) :
    ∃ p : Skip a, firstFrom sel i stop = .ok p ∧ p.stop = stop ∧ p.sought = 0 ∧
      IsNext sel.test i stop p.index := by
  have hNext : IsNext sel.test i stop (if i < stop then sel.next i stop else stop) := by
    split
    · have hBound : stop < indexBound := hStop.trans (by decide)
      exact hSel.next hBound hi
    · rename_i hge
      rw [le_antisymm hi (Nat.le_of_not_lt hge)]
      exact isNext_stop sel.test stop
  exact ⟨_, if_pos hNext.le_stop, rfl, rfl, hNext⟩

end Skip

namespace Cursor

theorem course_placed {d : Direction} (hSel : sel.ScansLinearly) {c : Cursor (Skip a) d}
    (h : c.position.Placed) (moves : List Move) :
    (course (act (Skip.motion sel)) moves c).2.position.Placed := by
  refine (course_keeps (X := fun _ => True) (I := fun c : Cursor (Skip a) d => c.position.Placed) ?_ moves h).1
  intro mv c hc
  apply ends_change
  · intro e he
    obtain ⟨hStop, hLanded⟩ := move_landed hSel hc he
    exact hLanded.placed (hStop ▸ hc.stop_lt)
  · exact fun _ _ => ⟨trivial, hc⟩

/-- Moving a reverse cursor moves its base the other way. The base of the cursor
after a match is at the match itself. -/
structure Mirrors (sel : Selection) (r : Cursor (Skip a) .reverse) : Prop where
  decremented : ∃ s, r.decrement (Skip.motion sel) = .ok s ∧
    (r.base (Skip.motion sel)).increment (Skip.motion sel) = .ok (s.base (Skip.motion sel))
  incremented : r.position.OnMatch sel → ∃ s, r.increment (Skip.motion sel) = .ok s ∧
    (r.base (Skip.motion sel)).decrement (Skip.motion sel) = .ok (s.base (Skip.motion sel)) ∧
    s.base (Skip.motion sel) = ⟨r.position⟩

theorem mirrors_of_placed (hSel : sel.ScansLinearly) {r : Cursor (Skip a) .reverse} (h : r.position.Placed) :
    r.Mirrors sel where
  decremented := ⟨_, rfl, rfl⟩
  incremented hMatch := by
    obtain ⟨q, hRecede, hAdvance⟩ := Skip.advance_recede hSel h (.inl hMatch)
    have hBack := Skip.recede_advance hSel h (.inl hMatch)
    have hBase : base (Skip.motion sel) ⟨q⟩ = ⟨r.position⟩ := congrArg Cursor.mk hAdvance
    refine ⟨⟨q⟩, ?_, ?_, hBase⟩
    · simp [increment, Skip.motion, hRecede, Except.map]
    · rw [hBase]
      simp [decrement, base, Skip.motion, hBack, Except.map]

/-- The base of `r` is `f`, and after any moves of `r` its steps are those of its base. -/
def BasedOn (sel : Selection) (r : Cursor (Skip a) .reverse) (f : Cursor (Skip a) .forward) : Prop :=
  r.base (Skip.motion sel) = f ∧ ∀ moves : List Move, (course (act (Skip.motion sel)) moves r).2.Mirrors sel

theorem exactly_basedOn (hSel : sel.ScansLinearly) (hStop : stop < beforeBegin) (hi : i ≤ stop) :
    ∃ (r : Cursor (Skip a) .reverse) (f : Cursor (Skip a) .forward),
      (Placement.exactly i).cursor sel stop = .ok r ∧ (Placement.firstFrom i).cursor sel stop = .ok f ∧
        r.BasedOn sel f := by
  have hStart : ({ index := i, stop } : Skip a).Placed := ⟨hStop, .inl hi⟩
  obtain ⟨q, hRecede, hqStop, hqSought, hPlaced, hBack⟩ := Skip.recede_next hSel hStart hi
  obtain ⟨p, hFirst, hpStop, hpSought, hNext⟩ := Skip.firstFrom_next (a := a) hSel hStop hi
  refine ⟨⟨q⟩, ⟨p⟩, ?_, ?_, ?_, ?_⟩
  · have hIndex : (Skip.ofIndex i stop : Except Fault (Skip a)) = .ok { index := i, stop } := if_pos hi
    simp [Placement.cursor, Placement.locate, hIndex, ofPosition, increment, Skip.motion, hRecede, bind, Except.bind,
      Except.map]
  · simp [Placement.cursor, Placement.locate, hFirst, ofPosition, bind, Except.bind]
  · have hIndex := hBack.unique hNext
    exact congrArg Cursor.mk (Skip.eq_of_index (hqStop.trans hpStop.symm) (hqSought.trans hpSought.symm) hIndex)
  · exact fun moves => mirrors_of_placed hSel (course_placed hSel hPlaced moves)

/-- The base of the reverse cursor at an index is the forward cursor at the first
match from there on; so in a table, whatever it holds, the base of the last entry
is past the last one, and the base of what is before the first entry is the first. -/
theorem base_exact :
    (∀ (a : Access) (sel : Selection) (stop i : Nat), sel.ScansLinearly → stop < beforeBegin → i ≤ stop →
      ∃ (r : Cursor (Skip a) .reverse) (f : Cursor (Skip a) .forward),
        (Placement.exactly i).cursor sel stop = .ok r ∧ (Placement.firstFrom i).cursor sel stop = .ok f ∧
          r.BasedOn sel f) ∧
    ∀ {κ ν : Type} {D : Domain κ} (a : Access) (t : Table D ν), D.count < beforeBegin →
      (∃ r f, t.last a = .ok r ∧ t.pastLast a = .ok f ∧ r.BasedOn t.occupancy.selection f) ∧
        ∃ r f, t.beforeFirst a = .ok r ∧ t.first a = .ok f ∧ r.BasedOn t.occupancy.selection f := by
  constructor
  · intro a sel stop i hSel hStop hi
    exact exactly_basedOn hSel hStop hi
  · intro κ ν D a t hCount
    have hSel := t.occupancy.selection_scansLinearly
    constructor
    · obtain ⟨r, f, hReverse, hForward, hBased⟩ := exactly_basedOn (a := a) hSel hCount le_rfl
      -- past the last ordinal there is nothing to look for
      have hPast : (Skip.firstFrom t.occupancy.selection D.count D.count : Except Fault (Skip a)) =
          Skip.ofIndex D.count D.count := by
        rw [Skip.firstFrom, if_neg (lt_irrefl D.count)]
      rw [Placement.cursor, Placement.locate, hPast] at hForward
      exact ⟨r, f, hReverse, hForward, hBased⟩
    · obtain ⟨r, f, hReverse, hForward, hBased⟩ := exactly_basedOn (a := a) hSel hCount (Nat.zero_le D.count)
      exact ⟨r, f, hReverse, hForward, hBased⟩

/-- From an odd index, whose base is the even one after it, and in a table with one entry. -/
theorem base_exact_even :
    let sel := Selection.linear fun i => i % 2 == 0
    let t : Table Domain.bool Nat :=
      { slots := #v[.unwritten, .held 5], occupancy := { buckets := #v[2] }, size := 1 }
    sel.ScansLinearly ∧ 5 < beforeBegin ∧ 3 ≤ 5 ∧ Domain.bool.count < beforeBegin ∧
      (∃ (r : Cursor (Skip .readOnly) .reverse) (f : Cursor (Skip .readOnly) .forward),
        (Placement.exactly 3).cursor sel 5 = .ok r ∧ f.position.index = 4 ∧ r.BasedOn sel f) ∧
      ∃ r f, t.last .writable = .ok r ∧ t.pastLast .writable = .ok f ∧ r.BasedOn t.occupancy.selection f := by
  intro sel t
  have hSel := Selection.scansLinearly_linear fun i => i % 2 == 0
  obtain ⟨r, f, hReverse, hForward, hBased⟩ := base_exact.1 .readOnly sel 5 3 hSel (by decide) (by decide)
  obtain ⟨hLast, -⟩ := base_exact.2 .writable t Domain.bool_lawful.count_lt
  cases hForward
  exact ⟨hSel, by decide, by decide, Domain.bool_lawful.count_lt, ⟨r, _, hReverse, by decide, hBased⟩, hLast⟩

end Cursor

end OrdinalMap
