import OrdinalMap.Proofs.Table.Model
import OrdinalMap.Table.Complete

/-! # Complete tables and the sequences that they are made of

A sequence of pairs either repeats a key, and then does so for a first time, or
ends before it does. Since a table over a lawful domain cannot have more entries
than there are keys, taking pairs comes to one of the two after at most one pair
more than that.
-/

namespace OrdinalMap

set_option autoImplicit false

variable {κ ν : Type} {D : Domain κ} {pairs pairs' : Nat → Option (κ × ν)} {j k n : Nat}

/-- One of the first `n` pairs has the key. -/
def Names (pairs : Nat → Option (κ × ν)) (n : Nat) (key : κ) : Prop := ∃ i < n, ∃ v, pairs i = some (key, v)

/-- The first `n` pairs are there, and none of them has the key of one before it. -/
def Fresh (pairs : Nat → Option (κ × ν)) (n : Nat) : Prop :=
  ∀ j < n, ∃ key v, pairs j = some (key, v) ∧ ¬ Names pairs j key

/-- The pair at `j` is the first that has the key of one before it. -/
structure Repeats (pairs : Nat → Option (κ × ν)) (j : Nat) : Prop where
  fresh : Fresh pairs j
  again : ∃ key v, pairs j = some (key, v) ∧ Names pairs j key

theorem names_congr (h : ∀ i < n, pairs' i = pairs i) (key : κ) : Names pairs' n key ↔ Names pairs n key := by
  refine exists_congr fun i => and_congr_right fun hi => ?_
  rw [h i hi]

theorem Repeats.congr (hRepeats : Repeats pairs j) (h : ∀ i ≤ j, pairs' i = pairs i) : Repeats pairs' j where
  fresh i hi := by
    obtain ⟨key, v, hPair, hNot⟩ := hRepeats.fresh i hi
    rw [← names_congr fun l hl => h l (hl.le.trans hi.le)] at hNot
    exact ⟨key, v, (h i hi.le).trans hPair, hNot⟩
  again := by
    obtain ⟨key, v, hPair, hNames⟩ := hRepeats.again
    rw [← names_congr fun l hl => h l hl.le] at hNames
    exact ⟨key, v, (h j le_rfl).trans hPair, hNames⟩

namespace Table

variable {t : Table D ν} {m : Nat → Option ν}

/-- The table has the first `n` pairs for its entries, and they are of different keys. -/
structure Filled (pairs : Nat → Option (κ × ν)) (n : Nat) (m : Nat → Option ν) (t : Table D ν) : Prop where
  fresh : Fresh pairs n
  shows : t.Shows m
  size : t.size = n
  found : ∀ key v, m (D.ordinal key) = some v ↔ ∃ i < n, pairs i = some (key, v)

theorem Filled.names_iff (h : t.Filled pairs n m) (key : κ) : Names pairs n key ↔ (m (D.ordinal key)).isSome = true := by
  rw [Option.isSome_iff_exists]
  constructor
  · rintro ⟨i, hi, v, hPair⟩
    exact ⟨v, (h.found key v).mpr ⟨i, hi, hPair⟩⟩
  · rintro ⟨v, hv⟩
    obtain ⟨i, hi, hPair⟩ := (h.found key v).mp hv
    exact ⟨i, hi, v, hPair⟩

theorem Filled.enter (hD : D.Lawful) (h : t.Filled pairs n m) {key : κ} {v : ν} (hPair : pairs n = some (key, v))
    (hi : m (D.ordinal key) = none) {u : Table D ν}
    (hu : u.Shows (Function.update m (D.ordinal key) (some v))) :
    u.Filled pairs (n + 1) (Function.update m (D.ordinal key) (some v)) where
  fresh j hj := by
    obtain hlt | rfl := Nat.lt_succ_iff_lt_or_eq.mp hj
    · exact h.fresh j hlt
    · refine ⟨key, v, hPair, ?_⟩
      rw [h.names_iff, hi]
      exact nofun
  shows := hu
  size := by rw [h.shows.size_update hi hu, h.size]
  found key' w := by
    simp only [Nat.lt_succ_iff_lt_or_eq, or_and_right, exists_or, exists_eq_left, hPair, ← h.found]
    rw [Option.some.injEq, Prod.mk.injEq]
    by_cases hKey : key' = key
    · subst hKey
      rw [Function.update_self, hi, Option.some.injEq]
      simp
    · rw [Function.update_of_ne (hD.ordinal_injective.ne hKey)]
      exact (or_iff_left fun hEq => hKey hEq.1.symm).symm

variable [Disposal ν]

/-- How taking pairs ends with a repeated key: the value that comes with it is given up. -/
def Fill.onRepeat (i : Nat) (v : ν) : Fill :=
  match Disposal.dispose v with
  | .ok _ => .repeated i
  | .error f => .faulted f

/-- Taking one more pair enters it, unless its key has come before. -/
theorem Filled.step (hD : D.Lawful) (h : t.Filled pairs n m) {key : κ} {v : ν} (hPair : pairs n = some (key, v)) :
    (Repeats pairs n ∧ ∀ limit, fill pairs (limit + 1) n t = (.onRepeat (D.ordinal key) v, n + 1, t)) ∨
      ∃ u m', u.Filled pairs (n + 1) m' ∧ ∀ limit, fill pairs (limit + 1) n t = fill pairs limit (n + 1) u := by
  cases hi : m (D.ordinal key) with
  | some w =>
    have hNames : Names pairs n key := by rw [h.names_iff, hi]; rfl
    refine .inl ⟨⟨h.fresh, key, v, hPair, hNames⟩, fun limit => ?_⟩
    simp only [fill, hPair, h.shows.constructNew_of_live hi, Fill.onRepeat]
    cases Disposal.dispose v with
    | ok _ => rfl
    | error f => rfl
  | none =>
    obtain ⟨new, u, hRun, rfl, hu⟩ | ⟨f, _, -, hf | ⟨_, ⟨⟩, -⟩, -⟩ :=
      (hi ▸ constructNew_ends h.shows (D.ordinal key) v).ran
    · refine .inr ⟨u, _, h.enter hD hPair hi hu, fun limit => ?_⟩
      rw [fill, hPair]
      dsimp only
      rw [hRun]
      rfl
    · exact absurd hf (hD.not_misfit key f)

end Table

/-- What a policy leaves of a result: it answers for what is wrong with the pairs. -/
def Policy.answer {α : Type} (P : Policy) (site : String) : Except Fault (Except CheckError α) → Except Fault α
  | .ok (.ok a) => .ok a
  | .ok (.error e) => .error (.refused (P.refuse site e))
  | .error f => .error f

namespace Table

variable [Disposal ν]

/-- The two loops take the same pairs, and come to the same end but for the answer to what is wrong. -/
theorem complete_eq_answer (P : Policy) (site : String) (pairs : Nat → Option (κ × ν)) :
    (complete P site pairs : Intake (Table D ν)).taken =
        (tryComplete pairs : Intake (Except CheckError (Table D ν))).taken ∧
      (complete P site pairs : Intake (Table D ν)).result =
        P.answer site (tryComplete pairs : Intake (Except CheckError (Table D ν))).result := by
  rw [complete, tryComplete]
  obtain ⟨_ | i | f, taken, t⟩ := fill pairs (fillLimit D) 0 (empty : Table D ν)
  · dsimp only
    split
    · exact ⟨rfl, rfl⟩
    · exact ⟨rfl, rfl⟩
  · exact ⟨rfl, rfl⟩
  · exact ⟨rfl, rfl⟩

end Table

namespace Table

variable [Disposal ν]

end Table

end OrdinalMap
