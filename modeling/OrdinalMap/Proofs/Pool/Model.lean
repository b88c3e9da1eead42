import OrdinalMap.Proofs.Table.Model
import OrdinalMap.Pool

/-! # Programs on one table refine the model

Operations by key on a table that is empty at first return what the model
returns, and the table always agrees with the model's partial function.
-/

namespace OrdinalMap.Pool

set_option autoImplicit false

variable {κ ν α : Type} {D : Domain κ} [DecidableEq κ] [Disposal ν] [Disposal.Quiet ν] {P : Pool D ν}
  {m : κ → Option ν} {r : Nat}

def keyed (r : Nat) (ops : List (Σ α : Type, KeyOperation κ ν α)) : List (Command κ ν) :=
  ops.map fun op => .call r (.keyed op.2)

theorem step_refines (hD : D.Lawful) (h : (P r).Shows (D.spread m)) (op : KeyOperation κ ν α) :
    (P.step (.call r (.keyed op))).1.result = (Model.perform D m op).1.map (fun a => ⟨α, a⟩) ∧
      ((P.step (.call r (.keyed op))).2 r).Shows (D.spread (Model.perform D m op).2) := by
  have hPut : ∀ u : Table D ν, u.Shows (D.spread (Model.perform D m op).2) →
      (P.put r u r).Shows (D.spread (Model.perform D m op).2) := by
    intro u hu
    rwa [Pool.put, if_pos rfl]
  rw [step_call, Pool.act, Operation.run]
  obtain ⟨a, u, hRun, hResult, hu⟩ | ⟨f, u, hRun, hResult, hu⟩ := (Table.run_realizes hD h op).ran
  · rw [hRun, hResult]
    exact ⟨rfl, hPut u hu⟩
  · rw [hRun, hResult]
    exact ⟨rfl, hPut u hu⟩

theorem run_shows (hD : D.Lawful) (h : (P r).Shows (D.spread m)) (ops : List (Σ α : Type, KeyOperation κ ν α)) :
    (Pool.run (keyed r ops) P).1.map Reply.result = (Model.run D ops m).1 ∧
      ((Pool.run (keyed r ops) P).2 r).Shows (D.spread (Model.run D ops m).2) := by
  induction ops generalizing P m with
  | nil => exact ⟨rfl, h⟩
  | cons op ops ih =>
    obtain ⟨hResult, hNext⟩ := step_refines hD h op.2
    obtain ⟨hResults, hLast⟩ := ih hNext
    exact ⟨List.cons_eq_cons.mpr ⟨hResult, hResults⟩, hLast⟩

/-- Any operations by key, on a table of a lawful domain that is empty at first:
each returns what it returns on the partial function, faults of the caller's
functions included, and the table they leave agrees with the partial function. -/
theorem keyed_refines (hD : D.Lawful) (r : Nat) (ops : List (Σ α : Type, KeyOperation κ ν α)) :
    (Pool.run (keyed r ops) (.start : Pool D ν)).1.map Reply.result =
        (Model.run D ops fun _ => none).1 ∧
      ((Pool.run (keyed r ops) (.start : Pool D ν)).2 r).Agrees (Model.run D ops fun _ => none).2 := by
  have hStart : ((.start : Pool D ν) r).Shows (D.spread fun _ => none) := by
    rw [D.spread_none]
    exact Table.shows_empty
  obtain ⟨hResults, hLast⟩ := run_shows hD hStart ops
  exact ⟨hResults, hLast.agrees hD⟩

/-- The second of two insertions of one key is without effect, and so is the erasure of another. -/
theorem keyed_refines_bool :
    Domain.bool.Lawful ∧
      ((Pool.run (keyed 0 [⟨_, .insert true 5⟩, ⟨_, .insert true 6⟩, ⟨_, .erase false⟩])
        (.start : Pool Domain.bool Nat)).2 0).get? true = .ok (some 5) :=
  ⟨Domain.bool_lawful, (keyed_refines Domain.bool_lawful 0
    [⟨_, .insert true 5⟩, ⟨_, .insert true 6⟩, ⟨_, .erase false⟩]).2.get true⟩

end OrdinalMap.Pool
