import OrdinalMap.Proofs.Pool.Failure
import OrdinalMap.Proofs.Table.Copy

/-! # Copies as good as the original

A table can be copied entry by entry into a new table or into one that is in use, or
slot by slot together with what lies in vacant slots. The slots of the three copies
differ, but not their entries, and so no program tells them from the original.
-/

namespace OrdinalMap.Table

set_option autoImplicit false

variable {κ ν σ : Type} {D : Domain κ} {copy : Copier σ ν} [Disposal ν]

/-- If values are copied exactly, copying neither fails nor changes anything, whatever
lies in the vacant slots of the table and whatever the target had before: size,
occupancy and entries are those of the table, and so are the replies that any program
gets that goes on with a copy. A table in use is cleared first, which stops if one of
its values cannot be given up; nothing else does. -/
theorem copies_exact (hCopy : ∀ s v, (copy s v).1 = .ok v) (s : σ) {t target : Table D ν} (ht : t.Reachable)
    (hTarget : target.Reachable) :
    (∃ c, t.cloneWith copy s = .ok c ∧ t.Untouched c) ∧
    Ends (cloneFromWith copy s t) target (fun _ c => t.Untouched c)
      (fun f _ => ∃ i, Disposal.StopsOn (target.live i) f) ∧
    t.Untouched t.copied := by
  have hShows := ht.sound.shows
  refine ⟨?_, ?_, ?_⟩
  · obtain ⟨c, hClone, hc⟩ := cloneWith_shows hCopy hShows s
    exact ⟨c, hClone, hc.untouched ht.sound⟩
  · apply (cloneFromWith_shows hCopy hShows hTarget.sound.shows s).mono
    · exact fun _ _ hc => hc.untouched ht.sound
    · exact fun _ _ hf => hf
  · exact hShows.untouched ht.sound

/-- In its vacant slot the clone has nothing, the copy into a used table what that table
had there, and the flat copy what was erased. -/
theorem copies_exact_bool :
    let t : Table Domain.bool Nat :=
      (Pool.run [.call 0 (.keyed (.insert false 6)), .call 0 (.keyed (.insert true 5)),
        .call 0 (.keyed (.erase false))] .start).2 0
    let target : Table Domain.bool Nat := (Pool.run [.call 0 (.keyed (.insert false 7))] .start).2 0
    t.Reachable ∧ target.Reachable ∧
      (∃ c, t.cloneWith .exact () = .ok c ∧ c.slots.toList = [.unwritten, .held 5] ∧ t.Untouched c) ∧
      (∃ s c, cloneFromWith .exact () t target = .ok s c ∧ c.slots.toList = [.held 7, .held 5] ∧ t.Untouched c) ∧
      t.copied.slots.toList = [.held 6, .held 5] ∧ t.Untouched t.copied := by
  intro t target
  have ht : t.Reachable := ⟨_, _, 0, rfl⟩
  have hTarget : target.Reachable := ⟨_, _, 0, rfl⟩
  have hCopy : ∀ (s : Unit) (v : Nat), (Copier.exact s v).1 = .ok v := fun _ _ => rfl
  obtain ⟨⟨c, hClone, hUntouched⟩, hFrom, hCopied⟩ := copies_exact hCopy () ht hTarget
  obtain ⟨s, u, hCloneFrom, hUntouched'⟩ | ⟨_, _, _, _, hStop⟩ := hFrom.ran
  · have hSlots : (match cloneFromWith .exact () t target with
        | .ok _ u => u.slots.toList
        | .error _ _ => []) = [.held 7, .held 5] := by decide +kernel
    rw [hCloneFrom] at hSlots
    refine ⟨ht, hTarget, ⟨c, hClone, ?_, hUntouched⟩, ⟨s, u, hCloneFrom, hSlots, hUntouched'⟩, by decide,
      hCopied⟩
    cases hClone
    decide
  · exact absurd hStop Disposal.Quiet.not_stopsOn

end OrdinalMap.Table
