import OrdinalMap.Proofs.Pool
import OrdinalMap.Proofs.Table.Conversion

/-! # Turning writable cursors into reading ones

A cursor that may write goes where a reading cursor goes, wherever it is turned into
one on its way. What it writes is seen by every later read, and nothing else changes.
-/

namespace OrdinalMap.Tour

set_option autoImplicit false

variable {κ ν : Type} {D : Domain κ} {d : Direction}

/-- From each landmark of a reachable table of a lawful domain, a tour that begins
with a writable cursor against the plain one, which makes the same moves and reads
with a reading cursor. Both show the same indices and keys and fault alike, and at
the end, which any point of a tour may be, the two cursors are the same. Each entry
is shown with the value last written to it, and only these values differ after it. -/
theorem conversion_exact (hD : D.Lawful) {t : Table D ν} (ht : t.Reachable) (mark : Landmark κ d) :
    ∃ p q, mark.locate .writable t = .ok p ∧ mark.locate .readOnly t = .ok q ∧
      ∀ steps : Tour ν .writable d,
        let plain := steps.asReadOnly.run q t
        let shown := replay steps.writes [] plain.1
        let u := (steps.run p t).2
        (steps.run p t).1.map (Except.map Sight.blank) = plain.1.map (Except.map Sight.blank) ∧
        (steps.arrival p t).cursor.position.same (steps.asReadOnly.arrival q t).cursor.position = true ∧
        (steps.run p t).1 = shown.1 ∧ plain.2 = t ∧
        u.occupancy = t.occupancy ∧ u.size = t.size ∧
        ∀ k, u.get? k = (t.get? k).map (Option.map (lastWritten shown.2 (D.ordinal k))) := by
  have hSound := ht.sound
  obtain ⟨p, hWritable, hReadOnly⟩ := mark.locate_asReadOnly (a := .writable) hD t
  refine ⟨p, p.asReadOnly, hWritable, hReadOnly, fun steps => ?_⟩
  intro plain shown u
  obtain ⟨hSeen, hOverlaid, hKept, hSame⟩ := steps.run_shadows hSound p hSound.overlaid
  have hSize : u.size = t.size := by
    rw [hOverlaid.sound.size_eq, hOverlaid.occupancy, hSound.size_eq]
  refine ⟨?_, hSame, hSeen, hKept, hOverlaid.occupancy, hSize, ?_⟩
  · rw [hSeen]
    exact replay_blank steps.writes [] (steps.length_run_asReadOnly p.asReadOnly t)
  · intro k
    rw [hOverlaid.sound.shows.get, hSound.shows.get, hOverlaid.live]
    rfl

/-- Back from the last entry, which is written twice, and on from there reading. -/
theorem conversion_exact_bool :
    let t : Table Domain.bool Nat :=
      (Pool.run [.call 0 (.keyed (.insert true 5)), .call 0 (.keyed (.insert false 6))] .start).2 0
    let steps : Tour Nat .writable .reverse :=
      .modify (· + 1) (.modify (· * 2) (.increment (.toReadOnly (.read (.decrement (.read .done))))))
    Domain.bool.Lawful ∧ t.Reachable ∧ ∃ p q, Landmark.last.locate .writable t = .ok p ∧
      Landmark.last.locate .readOnly t = .ok q ∧ (steps.run p t).1 =
        [.ok (.entry ⟨1, true, 6⟩), .ok (.entry ⟨1, true, 12⟩), .ok (.moved 0), .ok (.entry ⟨0, false, 6⟩),
          .ok (.moved 1), .ok (.entry ⟨1, true, 12⟩)] := by
  intro t steps
  have hReachable : t.Reachable := ⟨_, _, 0, rfl⟩
  obtain ⟨p, q, hWritable, hReadOnly, hExact⟩ := conversion_exact Domain.bool_lawful hReachable .last
  refine ⟨Domain.bool_lawful, hReachable, p, q, hWritable, hReadOnly, ?_⟩
  obtain ⟨-, -, hShown, -⟩ := hExact steps
  rw [hShown]
  cases hReadOnly
  decide

end OrdinalMap.Tour
