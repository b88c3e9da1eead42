import OrdinalMap.Proofs.Regular
import OrdinalMap.Slot

/-! # Giving up values

Giving up a value either comes to its end or stops with a message of the caller,
which is never taken for a breach. Values are quiet if it always comes to its end.
-/

namespace OrdinalMap

set_option autoImplicit false

namespace Disposal

variable (ν : Type) [Disposal ν]

/-- Giving up some value of the type stops with this fault. -/
def Stops (f : Fault) : Prop := ∃ v : ν, dispose v = .error f

variable {ν} in
/-- There is a value, and giving it up stops with this fault. -/
def StopsOn (o : Option ν) (f : Fault) : Prop := ∃ v ∈ o, dispose v = .error f

class Quiet : Prop where
  dispose_eq (v : ν) : dispose v = .ok ()

instance : Quiet Nat := ⟨fun _ => rfl⟩

instance : Quiet String := ⟨fun _ => rfl⟩

variable {ν} {o : Option ν} {f : Fault}

theorem StopsOn.stops (h : StopsOn o f) : Stops ν f := by
  obtain ⟨v, -, hv⟩ := h
  exact ⟨v, hv⟩

theorem settles_dispose (v : ν) : Settles (dispose v) fun _ => True := by
  rw [dispose]
  split
  · exact trivial
  · exact settles_raising _

theorem Stops.regular (h : Stops ν f) : f.Regular := by
  obtain ⟨v, hv⟩ := h
  have hSettles := settles_dispose v
  rw [hv] at hSettles
  exact hSettles

theorem Quiet.not_stops [Quiet ν] : ¬ Stops ν f := by
  rintro ⟨v, hv⟩
  rw [dispose_eq] at hv
  cases hv

theorem Quiet.not_stopsOn [Quiet ν] : ¬ StopsOn o f := fun h => not_stops h.stops

end Disposal

theorem map_eq_error {α β : Type} {x : Except Fault α} {g : α → β} {f : Fault} :
    x.map g = .error f ↔ x = .error f := by
  cases x with
  | ok _ => exact iff_of_false nofun nofun
  | error _ => rw [Except.map, Except.error.injEq, Except.error.injEq]

theorem Slot.dispose_held_eq_error {ν : Type} [Disposal ν] {v : ν} {f : Fault} :
    (held v).dispose = .error f ↔ Disposal.dispose v = .error f := map_eq_error

end OrdinalMap
