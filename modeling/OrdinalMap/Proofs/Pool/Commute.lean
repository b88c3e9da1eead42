import OrdinalMap.Proofs.Pool.Failure
import OrdinalMap.Proofs.Table.Collect
import OrdinalMap.Proofs.Table.Retain

/-! # Operations on different keys

In the model an operation on one key looks at the value of this key only, and writes no
other. Two of them on different keys can therefore change places: neither learns from
what it returns whether the other one has been performed before it.
-/

namespace OrdinalMap

set_option autoImplicit false

variable {κ ν α β : Type} {D : Domain κ}

/-- The operation is about this key and no other. -/
inductive KeyOperation.Affects : {α : Type} → KeyOperation κ ν α → κ → Prop
  | inserts {α : Type} {op : KeyOperation κ ν α} {k : κ} (h : op.Inserts k) : Affects op k
  | removes {α : Type} {op : KeyOperation κ ν α} {k : κ} (h : op.Removes k) : Affects op k
  | modify? (k : κ) (f : ν → ν) : Affects (.modify? k f) k
  | erase (k : κ) : Affects (.erase k) k

section Answer

variable [DecidableEq κ] {op : KeyOperation κ ν α} {op' : KeyOperation κ ν β} {j k : κ}

/-- The result of an operation about this key where the key has this value, and the
value that the operation leaves there. -/
def Model.answer (D : Domain κ) (op : KeyOperation κ ν α) (k : κ) (o : Option ν) : Except Fault α × Option ν :=
  ((perform D (fun _ => o) op).1, (perform D (fun _ => o) op).2 k)

/-- Nothing but the value of the key is looked at, and nothing else is written. -/
theorem KeyOperation.Affects.perform_eq (D : Domain κ) (hOp : op.Affects k) (m : κ → Option ν) :
    Model.perform D m op = ((Model.answer D op k (m k)).1, Function.update m k (Model.answer D op k (m k)).2) := by
  cases hOp with
  | inserts h =>
    cases h with
    | insert _ v => simp [Model.answer, Model.perform, Model.add_eq_update]
    | assign _ v => simp [Model.answer, Model.perform]
    | emplace _ make s =>
      cases hk : m k with
      | some v => simp [Model.answer, Model.perform, hk]
      | none => cases hMake : (make s).1 <;> simp [Model.answer, Model.perform, hk, hMake]
    | modifyOrInsert _ initial f => simp [Model.answer, Model.perform]
    | insertMany _ v => simp [Model.answer, Model.perform, Model.add_eq_update]
  | removes h =>
    cases h with
    | take? => simp [Model.answer, Model.perform]
    | takePair? => simp [Model.answer, Model.perform]
  | modify? _ f => simp [Model.answer, Model.perform]
  | erase => simp [Model.answer, Model.perform]

theorem KeyOperation.Affects.raised (D : Domain κ) (hOp : op.Affects k) (o : Option ν) {e : Fault}
    (he : (Model.answer D op k o).1 = .error e) : ∃ message, e = .raised message := by
  cases hOp with
  | inserts h =>
    cases h with
    | emplace _ make s =>
      cases o with
      | some v => cases he
      | none =>
        cases hMake : (make s).1 with
        | ok v => simp [Model.answer, Model.perform, hMake] at he
        | error message =>
          refine ⟨message, ?_⟩
          simpa [Model.answer, Model.perform, hMake, eq_comm] using he
    | _ => cases he
  | removes h => cases h <;> cases he
  | _ => cases he

end Answer

namespace Table

variable {op : KeyOperation κ ν α} {op' : KeyOperation κ ν β} {j k : κ} {t : Table D ν} {m : κ → Option ν}

theorem Realizes.outcome {x : Action D ν α} {r : Except Fault α × (κ → Option ν)} (h : Realizes x t r) :
    ∃ u, x t = Table.outcome r.1 u ∧ u.Shows (D.spread r.2) := by
  obtain ⟨a, u, hRun, hResult, hu⟩ | ⟨f, u, hRun, hResult, hu⟩ := Ends.ran h
  · exact ⟨u, by rw [hRun, hResult, Table.outcome], hu⟩
  · exact ⟨u, by rw [hRun, hResult, Table.outcome], hu⟩

variable [Disposal ν] [Disposal.Quiet ν]

theorem run_answers [DecidableEq κ] (hD : D.Lawful) (h : t.Shows (D.spread m)) (hOp : op.Affects k) :
    ∃ u, op.run t = outcome (Model.answer D op k (m k)).1 u ∧
      u.Shows (D.spread (Function.update m k (Model.answer D op k (m k)).2)) := by
  have hOutcome := (run_realizes hD h op).outcome
  rwa [hOp.perform_eq] at hOutcome

/-- The second of two operations on different keys answers as if there were no first. -/
theorem run_answers_both [DecidableEq κ] (hD : D.Lawful) (h : t.Shows (D.spread m)) (hOp : op.Affects j)
    (hOp' : op'.Affects k) (hne : j ≠ k) :
    ∃ u w, op.run t = outcome (Model.answer D op j (m j)).1 u ∧
      op'.run u = outcome (Model.answer D op' k (m k)).1 w ∧
      w.Shows (D.spread (Function.update (Function.update m j (Model.answer D op j (m j)).2) k
        (Model.answer D op' k (m k)).2)) := by
  obtain ⟨u, hRun, hu⟩ := run_answers hD h hOp
  obtain ⟨w, hRun', hw⟩ := run_answers hD hu hOp'
  rw [Function.update_of_ne hne.symm] at hRun' hw
  exact ⟨u, w, hRun, hRun', hw⟩

/-- Two operations on different keys give the same results in either order: what they
return, and the state in which they leave the function that makes a value, which tells how
often it was called. The tables left in the end have the same size and the same entries,
and nothing tells them apart. Only a function that was passed in makes either of them fail. -/
theorem operations_commute (hD : D.Lawful) (ht : t.Reachable) (hOp : op.Affects j) (hOp' : op'.Affects k)
    (hne : j ≠ k) :
    ∃ (x : Except Fault α) (y : Except Fault β) (t₁ t₂ u w : Table D ν),
      (op.run t = outcome x t₁ ∧ op'.run t₁ = outcome y u) ∧ (op'.run t = outcome y t₂ ∧ op.run t₂ = outcome x w) ∧
      w.size = u.size ∧ (∀ k', w.get? k' = u.get? k') ∧ u.Untouched w ∧
      (∀ e, x = .error e → ∃ message, e = .raised message) ∧ ∀ e, y = .error e → ∃ message, e = .raised message := by
  classical
  have hShows := ht.sound.shows.spread hD
  -- each order writes the same two answers, and writes to different keys commute
  obtain ⟨t₁, u, hFirst, hSecond, hu⟩ := run_answers_both hD hShows hOp hOp' hne
  obtain ⟨t₂, w, hFirst', hSecond', hw⟩ := run_answers_both hD hShows hOp' hOp hne.symm
  rw [Function.update_comm hne.symm, ← hu.live_eq] at hw
  have hUntouched := hw.untouched hu.sound
  refine ⟨_, _, t₁, t₂, u, w, ⟨hFirst, hSecond⟩, ⟨hFirst', hSecond'⟩, hUntouched.size, ?_, hUntouched,
    fun _ => hOp.raised D _, fun _ => hOp'.raised D _⟩
  intro k'
  rw [hw.get, hu.sound.shows.get]

/-- A key is given a value that is made, and another key loses its own. -/
theorem operations_commute_bool :
    let t : Table Domain.bool Nat := (Pool.run [.call 0 (.keyed (.insert true 5))] .start).2 0
    let make : KeyOperation Bool Nat _ := .emplace false (fun n : Nat => (.ok 6, n + 1)) 0
    let take : KeyOperation Bool Nat _ := .take? true
    Domain.bool.Lawful ∧ t.Reachable ∧ make.Affects false ∧ take.Affects true ∧ false ≠ true ∧
      ∃ x t₁ t₂ u w, (make.run t = outcome x t₁ ∧ take.run t₁ = outcome (.ok (some 5)) u) ∧
        (take.run t = outcome (.ok (some 5)) t₂ ∧ make.run t₂ = outcome x w) ∧ w.size = u.size ∧
        ∀ k, w.get? k = u.get? k := by
  intro t make take
  have ht : t.Reachable := ⟨_, _, 0, rfl⟩
  have hMake : make.Affects false := .inserts (.emplace ..)
  have hTake : take.Affects true := .removes (.take? _)
  obtain ⟨x, y, t₁, t₂, u, w, hOne, hOther, hSize, hGet, -⟩ :=
    operations_commute Domain.bool_lawful ht hMake hTake Bool.false_ne_true
  have hResult : (match take.run t with
      | .ok a _ => some a
      | .error _ _ => none) = some (some 5) := by decide
  rw [hOther.1] at hResult
  cases y with
  | ok a =>
    cases hResult
    exact ⟨Domain.bool_lawful, ht, hMake, hTake, Bool.false_ne_true, x, t₁, t₂, u, w, hOne, hOther, hSize, hGet⟩
  | error f => cases hResult

end Table

end OrdinalMap
