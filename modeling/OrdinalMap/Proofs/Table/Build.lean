import OrdinalMap.Builder
import OrdinalMap.Proofs.Table.Collect
import OrdinalMap.Proofs.Table.Copy

/-! # Ways to build a table from pairs

Pairs can be given to a table one by one, in bulk, or through a builder that gives out
clones on the way. A builder that was given some pairs has the first of each key for its
entries, whatever the portions in which they were given.
-/

namespace OrdinalMap

set_option autoImplicit false

variable {κ ν σ : Type} {D : Domain κ}

/-- Bulk insertions one after the other are one, on any domain and whether or not they fail. -/
theorem Table.insertMany_append [Disposal ν] (pairs pairs' : List (κ × ν)) :
    (insertMany (pairs ++ pairs') : Action D ν Unit) = (do insertMany pairs; insertMany pairs') := by
  induction pairs with
  | nil => rfl
  | cons p pairs ih => rw [List.cons_append, insertMany, insertMany, ih, bind_assoc]

namespace Builder

/-- The pairs that a step gives. -/
def Step.pairs : Step κ ν → List (κ × ν)
  | insert k v => [(k, v)]
  | insertMany pairs => pairs

def Call.steps : Call σ κ ν → List (Step κ ν)
  | add step => [step]
  | snapshot _ => []

def Call.asks : Call σ κ ν → Bool
  | add _ => false
  | snapshot _ => true

/-- All pairs that are given in a sequence of calls, in their order. -/
def given (cs : List (Call σ κ ν)) : List (κ × ν) := (cs.flatMap Call.steps).flatMap Step.pairs

theorem given_cons (c : Call σ κ ν) (cs : List (Call σ κ ν)) : given (c :: cs) = given [c] ++ given cs := by
  simp [given]

theorem perform_append [Disposal ν] (steps steps' : List (Step κ ν)) (b : Builder D ν) :
    perform (steps ++ steps') b = perform steps b >>= perform steps' := by
  induction steps generalizing b with
  | nil => rfl
  | cons step steps ih =>
    cases step with
    | insert k v => simp only [List.cons_append, perform, ih, bind_assoc]
    | insertMany pairs => simp only [List.cons_append, perform, ih, bind_assoc]

variable [DecidableEq κ]

/-- The builder has the first pair of each key for its entries. -/
def Took (b : Builder D ν) (pairs : List (κ × ν)) : Prop := b.table.Shows (D.spread fun k => pairs.lookup k)

variable {b : Builder D ν} {before : List (κ × ν)}

theorem took_empty : (empty : Builder D ν).Took [] := by
  change Table.Shows _ (D.spread fun _ => none)
  rw [D.spread_none]
  exact Table.shows_empty

theorem Took.size (hD : D.Lawful) (h : b.Took before) : b.size = (before.map Prod.fst).toFinset.card := by
  have hKeys : {k | (before.lookup k).isSome = true} = (before.map Prod.fst).toFinset := by
    ext k
    rw [Finset.mem_coe, List.mem_toFinset]
    exact isSome_lookup before k
  rw [Builder.size, (h.agrees hD).size, hKeys, Set.ncard_coe_finset]

theorem took_append {u : Table D ν} {pairs : List (κ × ν)}
    (h : u.Shows (D.spread fun k => (before.lookup k).or (pairs.lookup k))) :
    (⟨u⟩ : Builder D ν).Took (before ++ pairs) := by
  have hLookup : (fun k => (before ++ pairs).lookup k) = fun k => (before.lookup k).or (pairs.lookup k) :=
    funext fun _ => List.lookup_append
  rwa [Took, hLookup]

variable [Disposal ν]

/-- What a call shows if by then these pairs have been given. -/
structure Stage.Tells (stage : Stage D ν) (c : Call σ κ ν) (pairs : List (κ × ν)) : Prop where
  size : stage.size = (pairs.map Prod.fst).toFinset.card
  asked : stage.snapshot.isSome = c.asks
  rebuilt : ∀ t ∈ stage.snapshot, t.RebuiltBy pairs

variable [Disposal.Quiet ν]

theorem Took.perform (hD : D.Lawful) (h : b.Took before) (step : Step κ ν) :
    ∃ b', Builder.perform [step] b = .ok b' ∧ b'.Took (before ++ step.pairs) := by
  cases step with
  | insert k v =>
    obtain ⟨r, u, hRun, hu⟩ := Table.insert_shows hD h k v
    refine ⟨⟨u⟩, ?_, took_append hu⟩
    rw [Builder.perform, Builder.insert, after, hRun]
    rfl
  | insertMany pairs =>
    obtain ⟨u, hRun, hu⟩ := Table.insertMany_shows hD h pairs
    refine ⟨⟨u⟩, ?_, took_append hu⟩
    rw [Builder.perform, Builder.insertMany, after, hRun]
    rfl

theorem Took.call (hD : D.Lawful) {copy : Copier σ ν} (hCopy : ∀ s v, (copy s v).1 = .ok v) (h : b.Took before)
    (c : Call σ κ ν) :
    ∃ stage b', b.call copy c = .ok (stage, b') ∧ stage.Tells c (before ++ given [c]) ∧
      b'.Took (before ++ given [c]) ∧ Builder.perform c.steps b = .ok b' := by
  cases c with
  | add step =>
    obtain ⟨b', hRun, hb'⟩ := h.perform hD step
    have hGiven : given [(.add step : Call σ κ ν)] = step.pairs := by simp [given, Call.steps]
    rw [hGiven]
    refine ⟨{ size := b'.size }, b', ?_, ⟨hb'.size hD, rfl, ?_⟩, hb', hRun⟩
    · rw [Builder.call, hRun]
      rfl
    · exact fun t ht => absurd ht (Option.not_mem_none t)
  | snapshot s =>
    obtain ⟨t, hClone, ht⟩ := Table.cloneWith_shows hCopy h s
    have hGiven : before ++ given [(.snapshot s : Call σ κ ν)] = before := List.append_nil before
    rw [hGiven]
    refine ⟨{ size := b.size, snapshot := some t }, b, ?_, ⟨h.size hD, rfl, ?_⟩, h, rfl⟩
    · rw [Builder.call, snapshotWith, hClone]
      rfl
    · rintro _ ⟨⟩
      exact ht.rebuilt hD

theorem Took.follow (hD : D.Lawful) {copy : Copier σ ν} (hCopy : ∀ s v, (copy s v).1 = .ok v) (h : b.Took before)
    (cs : List (Call σ κ ν)) :
    ∃ stages b', Builder.follow copy cs b = .ok (stages, b') ∧ stages.length = cs.length ∧
      (∀ (i : Nat) (c : Call σ κ ν) (stage : Stage D ν), cs[i]? = some c → stages[i]? = some stage →
        stage.Tells c (before ++ given (cs.take (i + 1)))) ∧
      b'.Took (before ++ given cs) ∧ Builder.perform (cs.flatMap Call.steps) b = .ok b' := by
  induction cs generalizing b before with
  | nil =>
    refine ⟨[], b, rfl, rfl, nofun, ?_, rfl⟩
    rwa [show before ++ given ([] : List (Call σ κ ν)) = before from List.append_nil before]
  | cons c cs ih =>
    obtain ⟨stage, b', hCall, hTells, hb', hStep⟩ := h.call hD hCopy c
    obtain ⟨stages, w, hFollow, hLength, hStages, hw, hSteps⟩ := ih hb'
    refine ⟨stage :: stages, w, ?_, ?_, ?_, ?_, ?_⟩
    · simp only [Builder.follow, hCall, hFollow, bind, Except.bind]
      rfl
    · rw [List.length_cons, List.length_cons, hLength]
    · intro i c' stage' hc hStage
      cases i with
      | zero =>
        cases hc
        cases hStage
        exact hTells
      | succ i =>
        rw [List.take_succ_cons, given_cons, ← List.append_assoc]
        exact hStages i c' stage' hc hStage
    · rwa [given_cons, ← List.append_assoc]
    · rw [List.flatMap_cons, perform_append, hStep]
      exact hSteps

end Builder

end OrdinalMap
