import OrdinalMap.Proofs.Skip
import OrdinalMap.Proofs.Table.Schedule
import OrdinalMap.Proofs.Table.Tour

/-! # Where the cursors of a table stand

However a cursor is obtained from a sound table of a lawful domain, and wherever a
tour takes it, it stands on an entry, past the last ordinal, or before the first.
So what it finds, and whether it can move, can be told from its index.
-/

namespace OrdinalMap

set_option autoImplicit false

variable {κ ν : Type} {D : Domain κ} {a : Access} {d : Direction} {t u : Table D ν} {p : Position a d}

namespace Table

/-- The position is on an entry, past the last ordinal, or before the first. -/
structure Rests (t : Table D ν) (p : Position a d) : Prop where
  stop_eq : p.position.stop = D.count
  landed : p.position.Landed t.occupancy.selection

theorem Rests.placed (hD : D.Lawful) (h : t.Rests p) : p.position.Placed :=
  h.landed.placed (h.stop_eq ▸ hD.count_lt)

theorem Rests.congr (h : t.Rests p) (hu : u.occupancy = t.occupancy) : u.Rests p where
  stop_eq := h.stop_eq
  landed := hu ▸ h.landed

/-- What a position was last asked for, and what may be done there, do not matter. -/
theorem Rests.same {a' : Access} {d' : Direction} {q : Position a' d'} (h : t.Rests p)
    (hIndex : q.position.index = p.position.index) (hStop : q.position.stop = p.position.stop) : t.Rests q where
  stop_eq := hStop.trans h.stop_eq
  landed := by
    have hLanded := h.landed
    unfold Skip.Landed Skip.OnMatch at hLanded ⊢
    rwa [hIndex, hStop]

theorem Rests.advance (hD : D.Lawful) (h : t.Rests p) {d' : Direction} :
    t.Rests (⟨(t.motion a).advance p.position⟩ : Position a d') where
  stop_eq := h.stop_eq
  landed := Skip.advance_landed t.occupancy.selection_scansLinearly (h.placed hD)

theorem Rests.recede (hD : D.Lawful) (h : t.Rests p) (hIndex : p.position.index ≠ beforeBegin) :
    ∃ q, (t.motion a).recede p.position = .ok q ∧ t.Rests (⟨q⟩ : Position a d) := by
  have hRecede := Skip.recede_eq t.occupancy.selection (h.placed hD) hIndex
  have hLanded := Skip.recede_landed t.occupancy.selection_scansLinearly (h.placed hD) hRecede
  exact ⟨_, hRecede, hLanded.1.trans h.stop_eq, hLanded.2⟩

/-- Only a step back from before the first index faults. -/
theorem Rests.move (hD : D.Lawful) (h : t.Rests p) (mv : Move)
    (hMove : ¬ (mv.step d = .recede ∧ p.position.index = beforeBegin)) :
    ∃ q, Cursor.move (t.motion a) mv p = .ok q ∧ t.Rests q := by
  rw [Cursor.move_eq]
  cases hStep : mv.step d with
  | advance => exact ⟨_, rfl, h.advance hD⟩
  | recede =>
    obtain ⟨q, hRecede, hq⟩ := h.recede hD fun hIndex => hMove ⟨hStep, hIndex⟩
    exact ⟨⟨q⟩, by rw [hRecede]; rfl, hq⟩

theorem move_error {mv : Move} (hStep : mv.step d = .recede) (hIndex : p.position.index = beforeBegin) :
    Cursor.move (t.motion a) mv p = .error .recededPastBegin := by
  rw [Cursor.move_eq, hStep]
  simp [motion, Skip.motion, Skip.recede, hIndex, Except.map]

theorem Rests.of_move (hD : D.Lawful) (h : t.Rests p) (mv : Move) (q : Position a d)
    (hq : Cursor.move (t.motion a) mv p = .ok q) : t.Rests q := by
  obtain ⟨hStop, hLanded⟩ := Cursor.move_landed t.occupancy.selection_scansLinearly (h.placed hD) hq
  exact ⟨hStop.trans h.stop_eq, hLanded⟩

/-- What is true of a cursor because of where it stands. -/
structure Standing (t : Table D ν) (p : Position a d) : Prop where
  index : (∃ k, t.contains k = true ∧ D.ordinal k = p.position.index) ∨
    p.position.index = D.count ∨ p.position.index = beforeBegin
  vacant : p.position.isOutOfRange = true → ∃ f, (t.entry p).1 = .error f ∧
    f.message = "no live entry at position " ++ toString p.position.index
  found : p.position.isOutOfRange = false → ∃ e, (t.entry p).1 = .ok e ∧
    e.ordinal = p.position.index ∧ D.ordinal e.key = p.position.index ∧ t.get? e.key = .ok (some e.value)
  refuses : ∀ mv : Move, mv.step d = .recede → p.position.index = beforeBegin →
    Cursor.act (t.motion a) mv p = .error .recededPastBegin p ∧
      Cursor.moveCopied (t.motion a) mv p = .error .recededPastBegin
  moves : ∀ mv : Move, ¬ (mv.step d = .recede ∧ p.position.index = beforeBegin) →
    ∃ q, Cursor.act (t.motion a) mv p = .ok () q ∧ Cursor.moveCopied (t.motion a) mv p = .ok (p, q)

theorem Rests.standing (hD : D.Lawful) (ht : t.Sound) (h : t.Rests p) : t.Standing p where
  index := by
    obtain ⟨hlt, hMatch⟩ | hEnd := h.landed
    · obtain ⟨k, hk⟩ := hD.exists_key (hlt.trans_eq h.stop_eq)
      have hOrdinal := hD.ordinal_eq hk
      refine .inl ⟨k, ?_, hOrdinal⟩
      rw [Table.contains, hOrdinal]
      exact hMatch
    · rw [h.stop_eq] at hEnd
      exact .inr hEnd
  vacant hOut := by
    have hle : D.count ≤ p.position.index := by
      rw [← h.stop_eq]
      simpa [Skip.isOutOfRange] using hOut
    have hHolds : t.holds p.position.index = false := Bitmap.contains_of_le (hD.capacity_eq ▸ hle)
    exact ⟨_, entryAt_eq_error ht.shows (live_of_not_holds hHolds), rfl⟩
  found hIn := by
    have hlt : p.position.index < p.position.stop := by simpa [Skip.isOutOfRange] using hIn
    have hMatch : t.holds p.position.index = true := by
      obtain hMatch | hStop | hBefore := h.landed
      · exact hMatch.2
      · exact absurd hStop hlt.ne
      · have hBound := (h.placed hD).stop_lt
        omega
    obtain ⟨_, v, _, hv⟩ := ht.exists_live hMatch
    obtain ⟨k, hk⟩ := hD.exists_key (hlt.trans_eq h.stop_eq)
    refine ⟨⟨p.position.index, k, v⟩, ?_, rfl, hD.ordinal_eq hk, ht.shows.get_listed hD hk hv⟩
    rw [entry, entryAt_eq ht.shows hv, Domain.keyAt_eq_ok.mpr hk]
    rfl
  refuses mv hStep hIndex := by
    have hMove := move_error (t := t) hStep hIndex
    constructor
    · simp [Cursor.act, change, hMove]
    · rw [Cursor.moveCopied_eq, hMove]
      rfl
  moves mv hMove := by
    obtain ⟨q, hq, -⟩ := h.move hD mv hMove
    refine ⟨q, ?_, ?_⟩
    · simp [Cursor.act, change, hq]
    · rw [Cursor.moveCopied_eq, hq]
      rfl

theorem modifyEntry_frame (p : Position .writable d) (f : ν → ν) (t : Table D ν) :
    Ends (modifyEntry p f) t (fun _ u => u.occupancy = t.occupancy) (fun _ u => u.occupancy = t.occupancy) := by
  refine ends_bind.mpr (ends_inspect ?_ fun _ _ => rfl)
  intro e _
  apply (modifyAt_frame t e.ordinal f).bind
  · exact fun _ u hu => hu.1
  · exact fun _ u hu => congrArg Table.occupancy hu

theorem rests_liveFrom (ht : t.Sound) {start : Nat} (hStart : start ≤ D.count) :
    t.Rests (D.position a (t.liveFrom start)) where
  stop_eq := rfl
  landed := by
    have hNext := ht.shows.liveFrom hStart
    obtain hlt | hEq := Nat.lt_or_eq_of_le hNext.le_stop
    · refine .inl ⟨hlt, ?_⟩
      rw [← hNext.reached hlt]
      exact (ht.isSome_live _).symm
    · exact .inr (.inl hEq)

theorem rests_of_holds (hD : D.Lawful) {i : Nat} (h : t.holds i = true) : t.Rests (D.position a i) where
  stop_eq := rfl
  landed := .inl ⟨(Bitmap.lt_of_contains h).trans_eq hD.capacity_eq, h⟩

theorem rests_count (t : Table D ν) : t.Rests (D.position a D.count) where
  stop_eq := rfl
  landed := .inr (.inl rfl)

/-- The position before `i`, where a reverse cursor for `i` is created. -/
theorem positionAt_reverse (hD : D.Lawful) (t : Table D ν) {i : Nat} (hi : i ≤ D.count) :
    t.positionAt a .reverse i =
      .ok ⟨{ index := (t.occupancy.prev? i).getD beforeBegin, stop := D.count }⟩ := by
  have hPlaced : Skip.Placed (a := a) { index := i, stop := D.count } := ⟨hD.count_lt, .inl hi⟩
  have hRecede := Skip.recede_eq t.occupancy.selection hPlaced (hi.trans_lt hD.count_lt).ne
  simp only [positionAt, Skip.ofIndex, hi, ↓reduceIte, Cursor.ofPosition, Cursor.increment, motion, Skip.motion]
  exact congrArg (Except.map _) hRecede

theorem rests_prev (t : Table D ν) {i : Nat} (hi : i ≤ D.count) :
    t.Rests (⟨{ index := (t.occupancy.prev? i).getD beforeBegin, stop := D.count }⟩ : Position a d) where
  stop_eq := rfl
  landed := by
    cases hPrev : t.occupancy.prev? i with
    | none => exact .inr (.inr rfl)
    | some k =>
      obtain ⟨hk, hMember, -⟩ := Bitmap.prev?_eq_some hPrev
      exact .inl ⟨hk.trans_le hi, hMember⟩

end Table

namespace Tour

theorem settle_rests (hp : t.Rests p) {x : Except Fault (Position a d)} (hx : ∀ q, x = .ok q → t.Rests q) :
    t.Rests (settle (κ := κ) (ν := ν) p x).2 := by
  cases x with
  | ok q => exact hx q rfl
  | error f => exact hp

theorem settleCopied_rests (hp : t.Rests p) {x : Except Fault (Position a d)} (hx : ∀ q, x = .ok q → t.Rests q) :
    t.Rests (settleCopied (κ := κ) (ν := ν) p (x.map fun moved => (p, moved))).2 := by
  cases x with
  | ok q => exact hx q rfl
  | error f => exact hp

theorem arrival_rests (hD : D.Lawful) (steps : Tour ν a d) (hp : t.Rests p) :
    (steps.run p t).2.Rests (steps.arrival p t).cursor := by
  induction steps generalizing t with
  | done => exact hp
  | increment rest ih => exact ih (settle_rests hp (hp.of_move hD .increment))
  | decrement rest ih => exact ih (settle_rests hp (hp.of_move hD .decrement))
  | postIncrement rest ih => exact ih (settleCopied_rests hp (hp.of_move hD .increment))
  | postDecrement rest ih => exact ih (settleCopied_rests hp (hp.of_move hD .decrement))
  | read rest ih => exact ih (hp.same rfl rfl)
  | modify f rest ih =>
    rw [run, arrival]
    obtain ⟨e, u, hRun, hu⟩ | ⟨g, u, hRun, hu⟩ := (Table.modifyEntry_frame p f t).ran
    · rw [hRun]
      exact ih ((hp.congr hu).same rfl rfl)
    · rw [hRun]
      exact ih ((hp.congr hu).same rfl rfl)
  | toReadOnly rest ih => exact ih (hp.same rfl rfl)
  | base rest ih => exact ih (hp.advance hD)

/-- One tour and then another, which is open to whatever the first one leaves. -/
def andThen : {a : Access} → {d : Direction} → Tour ν a d → (next : ∀ {a d}, Tour ν a d) → Tour ν a d
  | _, _, .done, next => next
  | _, _, .increment rest, next => .increment (andThen rest next)
  | _, _, .decrement rest, next => .decrement (andThen rest next)
  | _, _, .postIncrement rest, next => .postIncrement (andThen rest next)
  | _, _, .postDecrement rest, next => .postDecrement (andThen rest next)
  | _, _, .read rest, next => .read (andThen rest next)
  | _, _, .modify f rest, next => .modify f (andThen rest next)
  | _, _, .toReadOnly rest, next => .toReadOnly (andThen rest next)
  | _, _, .base rest, next => .base (andThen rest next)

/-- The second tour goes on from where the first one arrived. -/
theorem run_andThen (steps : Tour ν a d) (next : ∀ {a d}, Tour ν a d) (p : Position a d) (t : Table D ν) :
    (steps.andThen next).run p t =
      let (seen, u) := steps.run p t
      let (more, w) := next.run (steps.arrival p t).cursor u
      (seen ++ more, w) := by
  induction steps generalizing t with
  | done => rfl
  | increment rest ih | decrement rest ih | postIncrement rest ih | postDecrement rest ih | read rest ih
  | toReadOnly rest ih | base rest ih => simp only [andThen, run, arrival, ih, List.cons_append]
  | modify f rest ih =>
    simp only [andThen, run, arrival]
    cases Table.modifyEntry p f t <;> simp only [ih, List.cons_append]

end Tour

namespace Origin

/-- The faults with which no cursor is obtained: the caller's own, those of values that
cannot be given up, and that of erasing a key without an entry. -/
def Withheld [Disposal ν] (t : Table D ν) : {a : Access} → {d : Direction} → Origin κ ν a d → Fault → Prop
  | _, _, .emplace k make s, f =>
    t.contains k = false ∧ ∃ message, (make s).1 = .error message ∧ f = .raised message
  | _, _, .insert k v, f => Disposal.StopsOn ((t.live (D.ordinal k)).map fun _ => v) f
  | _, _, .assign k _, f => Disposal.StopsOn (t.live (D.ordinal k)) f
  | _, _, .eraseAt k, f =>
    t.contains k = false ∧ f = .erasedVacant ∨ Disposal.StopsOn (t.live (D.ordinal k)) f
  | _, _, _, _ => False

theorem find_rests (hD : D.Lawful) (t : Table D ν) (k : κ) : ∃ p, t.find a k = .ok p ∧ t.Rests p := by
  rw [Table.find]
  split
  · rename_i hHolds
    exact ⟨_, t.positionAt_forward (hD.ordinal_lt k).le, Table.rests_of_holds hD hHolds⟩
  · exact ⟨_, t.positionAt_forward le_rfl, t.rests_count⟩

/-- A cursor that is obtained stands on an entry, past the last ordinal or before the first. -/
theorem obtain_rests [Disposal ν] (hD : D.Lawful) (ht : t.Sound) (origin : Origin κ ν a d) :
    Ends origin.obtain t (fun p u => u.Sound ∧ u.Rests p) (fun f _ => origin.Withheld t f) := by
  cases origin with
  | first => exact (Table.ends_inspect_ok t.first_eq).mpr ⟨ht, Table.rests_liveFrom ht (Nat.zero_le _)⟩
  | pastLast => exact (Table.ends_inspect_ok t.pastLast_eq).mpr ⟨ht, t.rests_count⟩
  | last =>
    have hLast : t.last a = _ := t.positionAt_reverse hD le_rfl
    exact (Table.ends_inspect_ok hLast).mpr ⟨ht, t.rests_prev le_rfl⟩
  | beforeFirst =>
    have hBefore : t.beforeFirst a = _ := t.positionAt_reverse hD (Nat.zero_le _)
    exact (Table.ends_inspect_ok hBefore).mpr ⟨ht, t.rests_prev (Nat.zero_le _)⟩
  | find k =>
    obtain ⟨p, hp, hRests⟩ := find_rests (a := a) hD t k
    exact (Table.ends_inspect_ok (f := fun t => t.find a k) hp).mpr ⟨ht, hRests⟩
  | insert k v =>
    apply (Table.insert_ends ht.shows k v).bind
    · rintro _ u ⟨rfl, hu⟩
      exact ⟨hu.sound, Table.rests_of_holds hD (by simp [hu.holds, Domain.enter])⟩
    · exact fun f u hf => hf.1.resolve_left (hD.not_misfit k f)
  | assign k v =>
    apply (Table.assign_ends ht.shows k v).bind
    · rintro _ u ⟨rfl, hu⟩
      exact ⟨hu.sound, Table.rests_of_holds hD (by simp [hu.holds])⟩
    · exact fun f u hf => hf.1.resolve_left (hD.not_misfit k f)
  | emplace k make s =>
    apply (Table.emplace_ends ht.shows k (fun s => (raising (make s).1, (make s).2)) s).bind
    · intro r u hu
      cases hk : t.live (D.ordinal k) with
      | some v =>
        rw [hk] at hu
        obtain ⟨rfl, hu⟩ := hu
        exact ⟨hu.sound, Table.rests_of_holds hD (hu.holds_of_some hk)⟩
      | none =>
        rw [hk] at hu
        obtain ⟨v, -, rfl, hu⟩ := hu
        exact ⟨hu.sound, Table.rests_of_holds hD (by simp [hu.holds])⟩
    · rintro f u (⟨hf, _⟩ | ⟨hk, hMake, _⟩)
      · exact absurd hf (hD.not_misfit k f)
      · refine ⟨ht.shows.holds_of_none hk, ?_⟩
        cases hMade : (make s).1 with
        | ok v =>
          rw [hMade] at hMake
          cases hMake
        | error message =>
          rw [hMade] at hMake
          cases hMake
          exact ⟨message, rfl, rfl⟩
  | eraseAt k =>
    apply (Table.eraseAt_ends ht.shows k).mono
    · rintro _ u ⟨-, rfl, hu⟩
      exact ⟨hu.sound, Table.rests_liveFrom hu.sound (hD.ordinal_lt k).le⟩
    · rintro f u (⟨hk, rfl, -⟩ | ⟨hStops, -⟩)
      · exact .inl ⟨ht.shows.holds_of_none hk, rfl⟩
      · exact .inr hStops

end Origin

end OrdinalMap
