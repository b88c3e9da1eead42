import OrdinalMap.Domain.Named
import OrdinalMap.Proofs.Pool
import OrdinalMap.Proofs.Pool.Alike
import OrdinalMap.Proofs.Table.Failure

/-! # Failures that leave no trace

On a domain whose data do not agree, insertions and removals fail at some ordinals.
The table is then what it was but for the vacant slot that was written, and nothing
that a program does later tells that the operation was tried.
-/

namespace OrdinalMap

set_option autoImplicit false

variable {κ ν : Type} {D : Domain κ} {t u : Table D ν}

namespace Table

variable [Disposal ν]

/-- `u` is as good as `t`: the size, the occupancy and all values of entries are the
same, and any program that goes on with `u` gets the replies that it would get if it
went on with `t`. -/
structure Untouched (t u : Table D ν) : Prop where
  size : u.size = t.size
  occupancy : u.occupancy = t.occupancy
  live : u.live = t.live
  replies : ∀ (P : Pool D ν) (r : Nat) (cs : List (Command κ ν)),
    (Pool.run cs (P.put r u)).1 = (Pool.run cs (P.put r t)).1

theorem Shows.untouched (h : t.Sound) (hu : u.Shows t.live) : t.Untouched u := by
  have hAlike := Alike.of_live h hu.sound hu.live_eq
  exact {
    size := hAlike.size
    occupancy := hAlike.occupancy
    live := hu.live_eq
    replies := fun P r cs => ((Pool.Alike.put (fun i => .refl (P i)) r hAlike).run cs).1 }

/-- Whatever the data of the domain, and whatever becomes of values that are given up.
An insertion at an ordinal without room always fails; when it does, and whenever it
fails before its entry is made or its value stored, it leaves no trace. A removal of an
entry whose ordinal has no key always fails, and no removal that fails leaves a trace.
A bulk insertion that fails at some pair leaves no more than what inserting the pairs
before that one leaves. -/
theorem failure_untouched {t : Table D ν} (ht : t.Reachable) :
    (∀ {α : Type} (op : KeyOperation κ ν α) (k : κ), op.Inserts k →
      Ends op.run t (fun _ _ => D.HasRoom (D.ordinal k))
        (fun f u => t.Untouched u ∨
          (f = .pastEnd (D.ordinal k) D.count ∨ Disposal.StopsOn (t.live (D.ordinal k)) f) ∧
            D.HasRoom (D.ordinal k))) ∧
    (∀ {α : Type} (op : KeyOperation κ ν α) (k : κ), op.Removes k →
      Ends op.run t (fun _ _ => t.contains k = true → D.ordinal k < D.values.length) (fun _ u => t.Untouched u)) ∧
    ∀ (pairs : List (κ × ν)) (f : Fault) (u : Table D ν), insertMany pairs t = .error f u →
      ∃ j w, ∃ hj : j < pairs.length, insertMany (pairs.take j) t = .ok () w ∧
        insertMany [pairs[j]] w = .error f u ∧ w.Untouched u := by
  have hSound := ht.sound
  refine ⟨?_, ?_, ?_⟩
  · intro α op k hOp
    apply (hOp.spares hSound.shows).mono
    · exact fun _ _ hRoom => hRoom
    · rintro f u (hu | hPast)
      · exact .inl (hu.untouched hSound)
      · exact .inr hPast
  · intro α op k hOp
    apply (hOp.spares hSound).mono
    · exact fun _ _ hKey => hKey
    · rintro f _ rfl
      exact hSound.shows.untouched hSound
  · intro pairs f u hRun
    obtain ⟨j, w, hj, hTake, hFail⟩ := insertMany_error hRun
    have hShows := insertMany_ends hSound.shows (pairs.take j)
    rw [Ends, hTake] at hShows
    have hSpared := insertMany_singleton_spares hShows.sound.shows pairs[j]
    rw [Ends, hFail] at hSpared
    exact ⟨j, w, hj, hTake, hFail, hSpared.untouched hShows.sound⟩

/-- Where no ordinal can be recorded, and where the last one has no slot or no key. -/
theorem failure_untouched_wide :
    (∃ t, insert ⟨"A", 2⟩ 5 (empty : Table Domain.wide Nat) = .error (.bitOutOfBounds 2) t ∧
      t.slots ≠ empty.slots ∧ empty.Untouched t) ∧
    (∃ t j w, insertMany [(⟨"A", 0⟩, 7), (⟨"C", 2⟩, 8)] (empty : Table Domain.shortSlots Nat) =
        .error (.indexOutOfBounds 2 2) t ∧
      insertMany ([(⟨"A", 0⟩, 7), (⟨"C", 2⟩, 8)].take j) empty = .ok () w ∧ w.Untouched t) ∧
    let u : Table Domain.shortList Nat := (Pool.run [.call 0 (.keyed (.insert ⟨"C", 2⟩ 5))] .start).2 0
    u.Reachable ∧ ∃ f u', take? ⟨"C", 2⟩ u = .error f u' ∧ u.Untouched u' := by
  refine ⟨⟨_, rfl, by decide, ?_⟩, ?_, ?_⟩
  · have hReachable : (empty : Table Domain.wide Nat).Reachable := ⟨inferInstance, [], 0, rfl⟩
    obtain hUntouched | ⟨hPast | hStop, -⟩ := (failure_untouched hReachable).1 (.insert ⟨"A", 2⟩ 5) ⟨"A", 2⟩ (.insert ..)
    · exact hUntouched
    · cases hPast
    · exact absurd hStop Disposal.Quiet.not_stopsOn
  · have hReachable : (empty : Table Domain.shortSlots Nat).Reachable := ⟨inferInstance, [], 0, rfl⟩
    obtain ⟨j, w, _, hTake, _, hUntouched⟩ :=
      (failure_untouched hReachable).2.2 [(⟨"A", 0⟩, 7), (⟨"C", 2⟩, 8)] (.indexOutOfBounds 2 2) _ rfl
    exact ⟨_, j, w, rfl, hTake, hUntouched⟩
  · intro u
    have hReachable : u.Reachable := ⟨_, _, 0, rfl⟩
    have hContains : u.contains ⟨"C", 2⟩ = true := by decide
    obtain ⟨_, _, _, hKey⟩ | hFailed := ((failure_untouched hReachable).2.1 (.take? ⟨"C", 2⟩) ⟨"C", 2⟩ (.take? _)).ran
    · exact absurd (hKey hContains) (by decide)
    · exact ⟨hReachable, hFailed⟩

end Table

end OrdinalMap
