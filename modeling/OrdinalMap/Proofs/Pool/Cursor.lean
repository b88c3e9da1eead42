import OrdinalMap.Proofs.Pool
import OrdinalMap.Proofs.Table.Sweep

/-! # Cursors over reachable tables

However a cursor is obtained and wherever it is taken, it stands on an entry, past
the last ordinal or before the first; and from one end of a table to the other it
comes by all entries in order.
-/

namespace OrdinalMap.Table

set_option autoImplicit false

variable {κ ν : Type} {D : Domain κ} [Disposal ν]

/-- On a lawful domain a cursor can always be obtained, unless the caller's function
raises, a value cannot be given up or a key without an entry is erased; and after every
tour from there it reads and moves as `Standing` says. A sweep from the first entry to past the last visits
what `entries` lists, and one from the last to before the first the reverse of it. -/
theorem cursors_stand (hD : D.Lawful) {t : Table D ν} (ht : t.Reachable) :
    (∀ (a : Access) (d : Direction) (origin : Origin κ ν a d),
      Ends origin.obtain t
        (fun p u => ∀ steps : Tour ν a d, (steps.run p u).2.Standing (steps.arrival p u).cursor)
        (fun f _ => origin.Withheld t f)) ∧
    ∃ es, t.entries = .ok es ∧ es.length = t.size ∧ ∀ a : Access,
      (∃ p stop, t.first a = .ok p ∧ t.pastLast a = .ok stop ∧ t.Sweeps stop p es) ∧
      ∃ p stop, t.last a = .ok p ∧ t.beforeFirst a = .ok stop ∧ t.Sweeps stop p es.reverse := by
  constructor
  · intro a d origin
    apply (origin.obtain_rests hD ht.sound).mono
    · rintro p u ⟨hu, hp⟩ steps
      have hSound := (steps.run_keeps p hu).1
      exact (steps.arrival_rests hD hp).standing hD hSound
    · exact fun _ _ hf => hf
  · exact exists_sweeps hD ht.sound

/-- Back from the last entry until there is none, and one step more. -/
theorem cursors_stand_bool :
    let t : Table Domain.bool Nat :=
      (Pool.run [.call 0 (.keyed (.insert true 5)), .call 0 (.keyed (.insert false 6))] .start).2 0
    let steps : Tour Nat .writable .reverse := .increment (.increment (.increment .done))
    Domain.bool.Lawful ∧ t.Reachable ∧
      (∃ p u, (Origin.last : Origin Bool Nat .writable .reverse).obtain t = .ok p u ∧
        (steps.run p u).2.Standing (steps.arrival p u).cursor) ∧
      ∃ es, t.entries = .ok es ∧ es.length = t.size := by
  intro t steps
  have hReachable : t.Reachable := ⟨_, _, 0, rfl⟩
  obtain ⟨hStand, es, hEntries, hLength, -⟩ := cursors_stand Domain.bool_lawful hReachable
  obtain ⟨p, u, hObtain, hSteps⟩ | ⟨f, _, _, hFalse⟩ := (hStand .writable .reverse .last).ran
  · exact ⟨Domain.bool_lawful, hReachable, ⟨p, u, hObtain, hSteps steps⟩, es, hEntries, hLength⟩
  · exact hFalse.elim

end OrdinalMap.Table
