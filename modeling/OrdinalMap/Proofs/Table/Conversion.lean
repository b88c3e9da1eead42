import OrdinalMap.Proofs.Table.Standing

/-! # Tours with a writable cursor and without one

A tour that writes and may turn its cursor into a reading one is compared with the
tour that makes the same moves with a reading cursor from the start and writes
nothing. What the writes show and leave can be told from what the plain tour sees.
-/

namespace OrdinalMap

set_option autoImplicit false

variable {κ ν : Type} {D : Domain κ} {a : Access} {d : Direction}

def Skip.asReadOnly (p : Skip a) : Skip .readOnly where
  index := p.index
  stop := p.stop
  sought := p.sought

def Position.asReadOnly (p : Position a d) : Position .readOnly d := Cursor.map Skip.asReadOnly p

/-- Where a cursor may be obtained without a change to the table. -/
inductive Landmark (κ : Type) : Direction → Type
  | first : Landmark κ .forward
  | pastLast : Landmark κ .forward
  | last : Landmark κ .reverse
  | beforeFirst : Landmark κ .reverse
  | find (k : κ) : Landmark κ .forward

def Landmark.locate (a : Access) (t : Table D ν) : {d : Direction} → Landmark κ d → Except Fault (Position a d)
  | _, .first => t.first a
  | _, .pastLast => t.pastLast a
  | _, .last => t.last a
  | _, .beforeFirst => t.beforeFirst a
  | _, .find k => t.find a k

theorem Landmark.locate_asReadOnly (hD : D.Lawful) (t : Table D ν) (mark : Landmark κ d) :
    ∃ p, mark.locate a t = .ok p ∧ mark.locate .readOnly t = .ok p.asReadOnly := by
  cases mark with
  | first => exact ⟨_, t.first_eq, t.first_eq⟩
  | pastLast => exact ⟨_, t.pastLast_eq, t.pastLast_eq⟩
  | last => exact ⟨_, t.positionAt_reverse hD le_rfl, t.positionAt_reverse hD le_rfl⟩
  | beforeFirst => exact ⟨_, t.positionAt_reverse hD (Nat.zero_le _), t.positionAt_reverse hD (Nat.zero_le _)⟩
  | find k =>
    have hle : (if t.holds (D.ordinal k) then D.ordinal k else D.count) ≤ D.count := by
      split
      · exact (hD.ordinal_lt k).le
      · exact le_rfl
    exact ⟨_, t.positionAt_forward hle, t.positionAt_forward hle⟩

namespace Tour

/-- The same moves and reads with a cursor that only reads. -/
def asReadOnly : {a : Access} → {d : Direction} → Tour ν a d → Tour ν .readOnly d
  | _, _, .done => .done
  | _, _, .increment rest => .increment (asReadOnly rest)
  | _, _, .decrement rest => .decrement (asReadOnly rest)
  | _, _, .postIncrement rest => .postIncrement (asReadOnly rest)
  | _, _, .postDecrement rest => .postDecrement (asReadOnly rest)
  | _, _, .read rest => .read (asReadOnly rest)
  | _, _, .modify _ rest => .read (asReadOnly rest)
  | _, _, .toReadOnly rest => asReadOnly rest
  | _, _, .base rest => .base (asReadOnly rest)

/-- What is written at each step that shows something. -/
def writes : {a : Access} → {d : Direction} → Tour ν a d → List (Option (ν → ν))
  | _, _, .done => []
  | _, _, .increment rest => none :: writes rest
  | _, _, .decrement rest => none :: writes rest
  | _, _, .postIncrement rest => none :: writes rest
  | _, _, .postDecrement rest => none :: writes rest
  | _, _, .read rest => none :: writes rest
  | _, _, .modify f rest => some f :: writes rest
  | _, _, .toReadOnly rest => writes rest
  | _, _, .base rest => none :: writes rest

end Tour

/-- The value last written to an ordinal, the last first, or else the one it had. -/
def lastWritten (ws : List (Nat × ν)) (i : Nat) (v : ν) : ν := (ws.lookup i).getD v

theorem lastWritten_cons_self (ws : List (Nat × ν)) (i : Nat) (v v' : ν) : lastWritten ((i, v) :: ws) i v' = v := by
  simp [lastWritten]

theorem lastWritten_cons_of_ne (ws : List (Nat × ν)) {i j : Nat} (v : ν) (h : j ≠ i) :
    lastWritten ((i, v) :: ws) j = lastWritten ws j := by
  funext v'
  simp [lastWritten, List.lookup_cons, beq_false_of_ne h]

def Entry.recall (ws : List (Nat × ν)) (e : Entry κ ν) : Entry κ ν :=
  { e with value := lastWritten ws e.ordinal e.value }

def Sight.recall (ws : List (Nat × ν)) : Sight κ ν → Sight κ ν
  | .entry e => .entry (e.recall ws)
  | s => s

/-- Puts writes into what a tour without them has seen: each entry is shown with the
value last written to it. Returns the values written as well, the last one first. -/
def replay : List (Option (ν → ν)) → List (Nat × ν) → List (Except Fault (Sight κ ν)) →
    List (Except Fault (Sight κ ν)) × List (Nat × ν)
  | some f :: fs, ws, .ok (.entry e) :: seen =>
    let v := f (e.recall ws).value
    let (more, last) := replay fs ((e.ordinal, v) :: ws) seen
    (.ok (.entry { e with value := v }) :: more, last)
  | _ :: fs, ws, s :: seen =>
    let (more, last) := replay fs ws seen
    (s.map (Sight.recall ws) :: more, last)
  | _, ws, _ => ([], ws)

theorem replay_none (fs : List (Option (ν → ν))) (ws : List (Nat × ν)) (s : Except Fault (Sight κ ν))
    (seen : List (Except Fault (Sight κ ν))) :
    replay (none :: fs) ws (s :: seen) = (s.map (Sight.recall ws) :: (replay fs ws seen).1, (replay fs ws seen).2) :=
  rfl

/-- What is shown, without the values. -/
def Sight.blank : Sight κ ν → Sight κ Unit
  | .moved index => .moved index
  | .copied before after => .copied before after
  | .entry e => .entry { ordinal := e.ordinal, key := e.key, value := () }

theorem Sight.blank_recall (ws : List (Nat × ν)) (s : Sight κ ν) : (s.recall ws).blank = s.blank := by
  cases s <;> rfl

/-- Writes change values only. -/
theorem replay_blank (fs : List (Option (ν → ν))) (ws : List (Nat × ν)) {seen : List (Except Fault (Sight κ ν))}
    (h : seen.length = fs.length) :
    (replay fs ws seen).1.map (Except.map Sight.blank) = seen.map (Except.map Sight.blank) := by
  induction fs generalizing ws seen with
  | nil =>
    rw [List.length_eq_zero_iff.mp h]
    rfl
  | cons o fs ih =>
    obtain ⟨s, seen, rfl⟩ := List.exists_cons_of_length_eq_add_one h
    have hRest := fun ws => ih ws (Nat.succ.inj h)
    match o, s with
    | none, .ok s => exact List.cons_eq_cons.mpr ⟨congrArg Except.ok (s.blank_recall ws), hRest ws⟩
    | some f, .ok (.entry e) => exact List.cons_eq_cons.mpr ⟨rfl, hRest _⟩
    | some f, .ok (.moved _) | some f, .ok (.copied _ _) | none, .error _ | some f, .error _ =>
      exact List.cons_eq_cons.mpr ⟨rfl, hRest ws⟩

theorem Cursor.move_asReadOnly (sel : Selection) (mv : Move) (p : Position a d) :
    Cursor.move (Skip.motion sel) mv p.asReadOnly =
      (Cursor.move (Skip.motion sel) mv p).map Position.asReadOnly := by
  rw [move_eq, move_eq]
  cases mv.step d with
  | advance => rfl
  | recede =>
    simp only [Skip.motion, Skip.recede, Position.asReadOnly, Cursor.map, Skip.asReadOnly]
    split <;> rfl

namespace Tour

theorem settle_recall (ws : List (Nat × ν)) (p : Position a d) (x : Except Fault (Position a d)) :
    (settle (κ := κ) p x).1.map (Sight.recall ws) = (settle p x).1 := by
  cases x <;> rfl

theorem settleCopied_recall (ws : List (Nat × ν)) (p : Position a d)
    (x : Except Fault (Position a d × Position a d)) :
    (settleCopied (κ := κ) p x).1.map (Sight.recall ws) = (settleCopied p x).1 := by
  cases x <;> rfl

end Tour

namespace Table

variable {t u : Table D ν} {ws : List (Nat × ν)}

/-- `u` is `t` with these values written, each to the entry at its ordinal. -/
structure Overlaid (t : Table D ν) (ws : List (Nat × ν)) (u : Table D ν) : Prop where
  sound : u.Sound
  occupancy : u.occupancy = t.occupancy
  live : ∀ i, u.live i = (t.live i).map (lastWritten ws i)

theorem Sound.overlaid (h : t.Sound) : t.Overlaid [] t where
  sound := h
  occupancy := rfl
  live _ := Option.map_id'.symm

theorem Overlaid.motion (h : t.Overlaid ws u) (a : Access) : u.motion a = Skip.motion t.occupancy.selection := by
  rw [Table.motion, h.occupancy]

/-- A move with either access shows the same, and leads to the same position. -/
theorem Overlaid.settle (h : t.Overlaid ws u) (mv : Move) (p : Position a d) :
    Tour.settle (κ := κ) (ν := ν) p.asReadOnly (Cursor.move (t.motion .readOnly) mv p.asReadOnly) =
      ((Tour.settle p (Cursor.move (u.motion a) mv p)).1,
        (Tour.settle (κ := κ) (ν := ν) p (Cursor.move (u.motion a) mv p)).2.asReadOnly) := by
  rw [h.motion, Table.motion, Cursor.move_asReadOnly]
  cases Cursor.move (Skip.motion t.occupancy.selection) mv p <;> rfl

/-- With either access the same entries are found, and the same faults met. -/
theorem Overlaid.entryAt (h : t.Overlaid ws u) (ht : t.Sound) (a : Access) (i : Nat) :
    u.entryAt a i = (t.entryAt .readOnly i).map (Entry.recall ws) := by
  have hLive := h.live i
  cases hi : t.live i with
  | none =>
    rw [hi] at hLive
    rw [entryAt_eq_error h.sound.shows hLive, entryAt_eq_error ht.shows hi]
    rfl
  | some v =>
    rw [hi] at hLive
    rw [entryAt_eq h.sound.shows hLive, entryAt_eq ht.shows hi]
    cases D.keyAt i <;> rfl

theorem Overlaid.write (h : t.Overlaid ws u) {i : Nat} {v : ν} (hi : (t.live i).isSome = true) {w : Table D ν}
    (hw : w.Shows (Function.update u.live i (some v))) (hOccupancy : w.occupancy = u.occupancy) :
    t.Overlaid ((i, v) :: ws) w where
  sound := hw.sound
  occupancy := hOccupancy.trans h.occupancy
  live j := by
    rw [hw.live_eq]
    obtain rfl | hij := eq_or_ne j i
    · obtain ⟨v', hv'⟩ := Option.isSome_iff_exists.mp hi
      rw [Function.update_self, hv', Option.map_some, lastWritten_cons_self]
    · rw [Function.update_of_ne hij, h.live, lastWritten_cons_of_ne ws v hij]

theorem Overlaid.modifyEntry (h : t.Overlaid ws u) (ht : t.Sound) (p : Position .writable d) (f : ν → ν) :
    Ends (modifyEntry p f) u
      (fun e w => ∃ found, t.entryAt .readOnly p.position.index = .ok found ∧
        e = { found with value := f (found.recall ws).value } ∧ t.Overlaid ((found.ordinal, e.value) :: ws) w)
      (fun g w => t.entryAt .readOnly p.position.index = .error g ∧ w = u) := by
  have hEntry := h.entryAt ht .writable p.position.index
  refine ends_bind.mpr (ends_inspect ?_ ?_)
  · intro e he
    obtain ⟨hIndex, -, hValue⟩ := Walk.finds_of_entryAt h.sound.shows he
    rw [← hIndex] at hValue
    rw [hEntry] at he
    cases hFound : t.entryAt .readOnly p.position.index with
    | error g =>
      rw [hFound] at he
      cases he
    | ok found =>
      rw [hFound] at he
      cases he
      obtain ⟨hOrdinal, -, hSome⟩ := Walk.finds_of_entryAt ht.shows hFound
      have hLive : (t.live found.ordinal).isSome = true := by
        rw [hOrdinal, hSome]
        rfl
      apply ((modifyAt_ends h.sound.shows hValue f).and (modifyAt_frame u _ f)).bind
      · rintro _ w ⟨⟨rfl, hw⟩, hOccupancy, -⟩
        exact ⟨found, rfl, rfl, h.write hLive hw hOccupancy⟩
      · exact fun _ _ hFalse => hFalse.1.elim
  · intro g hg
    rw [hEntry] at hg
    cases hFound : t.entryAt .readOnly p.position.index with
    | error g' =>
      rw [hFound] at hg
      cases hg
      exact ⟨rfl, rfl⟩
    | ok found =>
      rw [hFound] at hg
      cases hg

end Table

namespace Tour

variable {t u : Table D ν} {ws : List (Nat × ν)}

theorem length_run_asReadOnly (steps : Tour ν a d) (p : Position .readOnly d) (t : Table D ν) :
    (steps.asReadOnly.run p t).1.length = steps.writes.length := by
  induction steps generalizing t with
  | done => rfl
  | toReadOnly rest ih => exact ih p t
  | increment rest ih | decrement rest ih | postIncrement rest ih | postDecrement rest ih | read rest ih
  | modify f rest ih | base rest ih => exact congrArg Nat.succ (ih _ t)

/-- A tour on `u`, which is `t` with some values written, against the plain tour on `t`. -/
structure Shadows (steps : Tour ν a d) (p : Position a d) (t : Table D ν) (ws : List (Nat × ν))
    (u : Table D ν) : Prop where
  seen : (steps.run p u).1 = (replay steps.writes ws (steps.asReadOnly.run p.asReadOnly t).1).1
  overlaid : t.Overlaid (replay steps.writes ws (steps.asReadOnly.run p.asReadOnly t).1).2 (steps.run p u).2
  kept : (steps.asReadOnly.run p.asReadOnly t).2 = t
  same : (steps.arrival p u).cursor.position.same (steps.asReadOnly.arrival p.asReadOnly t).cursor.position = true

/-- Both tours take a step, to cursors at one position, and see `r` and `s` there. -/
theorem Shadows.step {a' : Access} {d' : Direction} {steps : Tour ν a d} {rest : Tour ν a' d'} {p : Position a d}
    {p' : Position a' d'} {ws' : List (Nat × ν)} {u' : Table D ν} {r s : Except Fault (Sight κ ν)}
    (h : rest.Shadows p' t ws' u')
    (hReplay : ∀ seen, replay steps.writes ws (s :: seen) =
      (r :: (replay rest.writes ws' seen).1, (replay rest.writes ws' seen).2))
    (hRun : steps.run p u = (r :: (rest.run p' u').1, (rest.run p' u').2))
    (hPlain : steps.asReadOnly.run p.asReadOnly t =
      (s :: (rest.asReadOnly.run p'.asReadOnly t).1, (rest.asReadOnly.run p'.asReadOnly t).2))
    (hArrival : steps.arrival p u = rest.arrival p' u')
    (hPlainArrival : steps.asReadOnly.arrival p.asReadOnly t = rest.asReadOnly.arrival p'.asReadOnly t) :
    steps.Shadows p t ws u := by
  obtain ⟨hSeen, hOverlaid, hKept, hSame⟩ := h
  constructor
  · rw [hRun, hPlain, hReplay, hSeen]
  · rw [hRun, hPlain, hReplay]
    exact hOverlaid
  · rw [hPlain]
    exact hKept
  · rw [hArrival, hPlainArrival]
    exact hSame

/-- The case of a step that shows no entry: `x` and `y` are what it shows and leads to
in the two tours. -/
theorem Shadows.look {d' : Direction} {steps : Tour ν a d} {rest : Tour ν a d'} {p : Position a d}
    {x : Except Fault (Sight κ ν) × Position a d'} {y : Except Fault (Sight κ ν) × Position .readOnly d'}
    (h : rest.Shadows x.2 t ws u) (hLook : y = (x.1, x.2.asReadOnly)) (hSight : x.1.map (Sight.recall ws) = x.1)
    (hWrites : steps.writes = none :: rest.writes)
    (hRun : steps.run p u = (x.1 :: (rest.run x.2 u).1, (rest.run x.2 u).2))
    (hPlain : steps.asReadOnly.run p.asReadOnly t =
      (y.1 :: (rest.asReadOnly.run y.2 t).1, (rest.asReadOnly.run y.2 t).2))
    (hArrival : steps.arrival p u = rest.arrival x.2 u)
    (hPlainArrival : steps.asReadOnly.arrival p.asReadOnly t = rest.asReadOnly.arrival y.2 t) :
    steps.Shadows p t ws u := by
  subst hLook
  refine h.step (fun seen => ?_) hRun hPlain hArrival hPlainArrival
  rw [hWrites, replay_none, hSight]

theorem run_shadows (ht : t.Sound) (steps : Tour ν a d) (p : Position a d) (hu : t.Overlaid ws u) :
    steps.Shadows p t ws u := by
  induction steps generalizing ws u with
  | done => exact ⟨rfl, hu, rfl, Skip.same_self p.asReadOnly.position⟩
  | increment rest ih => exact (ih _ hu).look (hu.settle .increment p) (settle_recall ws p _) rfl rfl rfl rfl rfl
  | decrement rest ih => exact (ih _ hu).look (hu.settle .decrement p) (settle_recall ws p _) rfl rfl rfl rfl rfl
  | postIncrement rest ih =>
    have hMotion : t.motion .readOnly = u.motion .readOnly := (hu.motion .readOnly).symm
    have hLook := congrArg (fun m => settleCopied (κ := κ) (ν := ν) p (p.postIncrement m)) hMotion
    exact (ih _ hu).look hLook (settleCopied_recall ws p _) rfl rfl rfl rfl rfl
  | postDecrement rest ih =>
    have hMotion : t.motion .readOnly = u.motion .readOnly := (hu.motion .readOnly).symm
    have hLook := congrArg (fun m => settleCopied (κ := κ) (ν := ν) p (p.postDecrement m)) hMotion
    exact (ih _ hu).look hLook (settleCopied_recall ws p _) rfl rfl rfl rfl rfl
  | @read a d rest ih =>
    refine (ih (p.map Skip.seek) hu).step (s := (t.entryAt .readOnly p.position.index).map .entry)
      (r := (u.entryAt a p.position.index).map .entry) (fun seen => ?_) rfl rfl rfl rfl
    rw [writes, replay_none, hu.entryAt ht]
    cases t.entryAt .readOnly p.position.index <;> rfl
  | modify f rest ih =>
    have hPlain : ∀ {r}, t.entryAt .readOnly p.position.index = r →
        (modify f rest).asReadOnly.run p.asReadOnly t =
          (r.map .entry :: (rest.asReadOnly.run (p.asReadOnly.map Skip.seek) t).1,
            (rest.asReadOnly.run (p.asReadOnly.map Skip.seek) t).2) := by
      rintro _ rfl
      rfl
    obtain ⟨e, w, hRun, found, hFound, rfl, hw⟩ | ⟨g, w, hRun, hFound, rfl⟩ := (hu.modifyEntry ht p f).ran
    · refine (ih (p.map Skip.seek) hw).step (fun _ => rfl) ?_ (hPlain hFound) ?_ rfl
      · rw [run, hRun]
      · rw [arrival, hRun]
    · refine (ih (p.map Skip.seek) hu).step (fun _ => rfl) ?_ (hPlain hFound) ?_ rfl
      · rw [run, hRun]
        rfl
      · rw [arrival, hRun]
  | toReadOnly rest ih =>
    obtain ⟨hSeen, hOverlaid, hKept, hSame⟩ := ih p.toReadOnly hu
    exact ⟨hSeen, hOverlaid, hKept, hSame⟩
  | @base a rest ih =>
    have hBase : Cursor.base (t.motion .readOnly) p.asReadOnly = Position.asReadOnly (p.base (u.motion a)) := by
      rw [hu.motion]
      rfl
    have hLook := congrArg (fun q => ((.ok (.moved q.position.index) : Except Fault (Sight κ ν)), q)) hBase
    exact (ih (p.base (u.motion a)) hu).look
      (x := (.ok (.moved (p.base (u.motion a)).position.index), p.base (u.motion a))) hLook rfl rfl rfl rfl rfl rfl

end Tour

end OrdinalMap
