import OrdinalMap.Proofs.Domain
import OrdinalMap.Proofs.Table.Keyed
import OrdinalMap.Operation
import Mathlib.Data.Set.Card

/-! # The model of a table

Over a lawful domain a table stands for a partial function from keys to values.
The model says of each operation by key what it returns and what partial function
it leaves, without slots, bits or counts. An operation on a table does the same.
-/

namespace OrdinalMap

set_option autoImplicit false

variable {κ ν α : Type}

namespace Model

def size (D : Domain κ) (m : κ → Option ν) : Nat := D.values.countP fun k => (m k).isSome

/-- The ordinal of the next key after `k` that has a value, or the number of keys. -/
def next (D : Domain κ) (m : κ → Option ν) (k : κ) : Nat :=
  match D.values.find? fun k' => decide (D.ordinal k < D.ordinal k') && (m k').isSome with
  | some k' => D.ordinal k'
  | none => D.count

variable [DecidableEq κ]

def add (m : κ → Option ν) (p : κ × ν) : κ → Option ν :=
  match m p.1 with
  | some _ => m
  | none => Function.update m p.1 (some p.2)

theorem add_eq_update (m : κ → Option ν) (p : κ × ν) :
    add m p = Function.update m p.1 (some ((m p.1).getD p.2)) := by
  rw [add]
  cases hp : m p.1 with
  | some v => exact (Function.update_eq_self_iff.mpr hp.symm).symm
  | none => rfl

def perform (D : Domain κ) (m : κ → Option ν) : KeyOperation κ ν α → Except Fault α × (κ → Option ν)
  | .insert k v => (.ok (D.position .writable (D.ordinal k), (m k).isNone), add m (k, v))
  | .assign k v => (.ok (D.position .writable (D.ordinal k), (m k).isNone), Function.update m k (some v))
  | .emplace k make s =>
    match m k, (make s).1 with
    | some _, _ => (.ok (D.position .writable (D.ordinal k), false, s), m)
    | none, .ok v => (.ok (D.position .writable (D.ordinal k), true, (make s).2), Function.update m k (some v))
    | none, .error message => (.error (.raised message), m)
  | .modifyOrInsert k initial f =>
    (.ok (f ((m k).getD initial)), Function.update m k (some (f ((m k).getD initial))))
  | .modify? k f => (.ok ((m k).map f), Function.update m k ((m k).map f))
  | .modifyRequired P site k f =>
    match m k with
    | some v => (.ok (f v), Function.update m k (some (f v)))
    | none => (.error (.refused (P.refuse site (.outOfRange (D.ordinal k) (size D m)))), m)
  | .insertMany pairs => (.ok (), pairs.foldl add m)
  | .erase k => (.ok (if (m k).isSome then 1 else 0), Function.update m k none)
  | .eraseAt k =>
    match m k with
    | some _ => (.ok (D.position .writable (next D m k)), Function.update m k none)
    | none => (.error .erasedVacant, m)
  | .take? k => (.ok (m k), Function.update m k none)
  | .takePair? k => (.ok ((m k).map fun v => (k, v)), Function.update m k none)
  | .clear => (.ok (), fun _ => none)

def run (D : Domain κ) : List (Σ α : Type, KeyOperation κ ν α) → (κ → Option ν) →
    List (Except Fault (Σ α : Type, α)) × (κ → Option ν)
  | [], m => ([], m)
  | ⟨α, op⟩ :: ops, m =>
    let (result, m) := perform D m op
    let (results, m) := run D ops m
    (result.map (fun a => ⟨α, a⟩) :: results, m)

end Model

namespace Domain

variable {D : Domain κ} {m : κ → Option ν}

/-- Keys are counted in the list of all keys. -/
theorem Lawful.ncard_eq_length (hD : D.Lawful) (p : κ → Bool) : {k | p k = true}.ncard = (D.values.filter p).length := by
  classical
  have hSet : {k | p k = true} = (D.values.filter p).toFinset := by
    ext k
    rw [Finset.mem_coe, List.mem_toFinset, List.mem_filter]
    exact (and_iff_right (hD.listed k)).symm
  rw [hSet, Set.ncard_coe_finset, List.toFinset_card_of_nodup (hD.nodup_values.filter _)]

/-- The partial function of a model, by ordinals. -/
def spread (D : Domain κ) (m : κ → Option ν) (i : Nat) : Option ν := D.values[i]?.bind m

theorem spread_none (D : Domain κ) : D.spread (fun _ => (none : Option ν)) = fun _ => none := by
  funext i
  exact Option.bind_fun_none _

theorem spread_of_getElem {i : Nat} {k : κ} (hk : D.values[i]? = some k) (m : κ → Option ν) :
    D.spread m i = m k := by
  rw [spread, hk]
  rfl

theorem Lawful.spread_ordinal (hD : D.Lawful) (m : κ → Option ν) (k : κ) :
    D.spread m (D.ordinal k) = m k := by
  rw [spread, hD.getElem_ordinal]
  rfl

theorem Lawful.spread_update [DecidableEq κ] (hD : D.Lawful) (m : κ → Option ν) (k : κ) (o : Option ν) :
    D.spread (Function.update m k o) = Function.update (D.spread m) (D.ordinal k) o := by
  funext i
  by_cases hi : i = D.ordinal k
  · rw [hi, hD.spread_ordinal, Function.update_self, Function.update_self]
  · rw [Function.update_of_ne hi, spread, spread]
    cases hk : D.values[i]? with
    | none => rfl
    | some k' =>
      have hne : k' ≠ k := by
        rintro rfl
        exact hi (hD.ordinal_eq hk).symm
      exact Function.update_of_ne hne o m

variable [DecidableEq κ]

theorem Lawful.spread_add (hD : D.Lawful) (m : κ → Option ν) (p : κ × ν) :
    D.spread (Model.add m p) = D.enter (D.spread m) p := by
  rw [enter, Model.add_eq_update, hD.spread_update, hD.spread_ordinal]

theorem Lawful.spread_foldl (hD : D.Lawful) (pairs : List (κ × ν)) (m : κ → Option ν) :
    D.spread (pairs.foldl Model.add m) = pairs.foldl D.enter (D.spread m) := by
  induction pairs generalizing m with
  | nil => rfl
  | cons p pairs ih => rw [List.foldl_cons, List.foldl_cons, ih, hD.spread_add]

end Domain

namespace Table

variable {D : Domain κ} {t : Table D ν} {m : κ → Option ν}

theorem Shows.size_eq_countP (hD : D.Lawful) (h : t.Shows (D.spread m)) : t.size = Model.size D m := by
  have hSpread : (fun k => (m k).isSome) = (fun i => (D.spread m i).isSome) ∘ D.ordinal := by
    funext k
    exact congrArg Option.isSome (hD.spread_ordinal m k).symm
  calc
    t.size = Nat.count (fun i => (D.spread m i).isSome = true) D.count := by rw [h.size_eq, hD.capacity_eq]
    _ = (List.range D.count).countP fun i => (D.spread m i).isSome := by
      simp only [Nat.count, Bool.decide_eq_true]
    _ = Model.size D m := by rw [← hD.map_ordinal, List.countP_map, Model.size, hSpread]

/-- All that a table of a lawful domain shows belongs to keys. -/
theorem Shows.spread_ordinal (hD : D.Lawful) {m : Nat → Option ν} (h : t.Shows m) :
    D.spread (fun k => m (D.ordinal k)) = m := by
  funext i
  rw [Domain.spread]
  cases hk : D.values[i]? with
  | some k => exact congrArg m (hD.ordinal_eq hk)
  | none =>
    cases hi : m i with
    | none => rfl
    | some v =>
      have hlt := h.lt_capacity hi
      obtain ⟨k, hSome⟩ := hD.exists_key (hD.capacity_eq ▸ hlt)
      rw [hk] at hSome
      cases hSome

theorem Shows.spread (hD : D.Lawful) {m : Nat → Option ν} (h : t.Shows m) :
    t.Shows (D.spread fun k => m (D.ordinal k)) := by
  rwa [h.spread_ordinal hD]

theorem Shows.eq_of_keys (hD : D.Lawful) {u : Table D ν} {m m' : Nat → Option ν} (ht : t.Shows m) (hu : u.Shows m')
    (h : ∀ k, m (D.ordinal k) = m' (D.ordinal k)) : m = m' := by
  rw [← ht.spread_ordinal hD, ← hu.spread_ordinal hD]
  exact congrArg D.spread (funext h)

theorem liveFrom_eq_next (hD : D.Lawful) {k : κ}
    (h : t.Shows (Function.update (D.spread m) (D.ordinal k) none)) :
    t.liveFrom (D.ordinal k) = Model.next D m k := by
  apply (h.liveFrom (hD.ordinal_lt k).le).unique
  -- past the ordinal of the key, the search among the listed keys tells which ordinals are live
  have hLive : ∀ {i : Nat} {k' : κ}, D.values[i]? = some k' →
      (Function.update (D.spread m) (D.ordinal k) none i).isSome = true →
        D.ordinal k ≤ i → (decide (D.ordinal k < D.ordinal k') && (m k').isSome) = true := by
    intro i k' hk' hSome hle
    have hne : i ≠ D.ordinal k := by
      rintro rfl
      rw [Function.update_self] at hSome
      cases hSome
    rw [Function.update_of_ne hne, Domain.spread_of_getElem hk'] at hSome
    rw [hD.ordinal_eq hk', hSome, decide_eq_true (lt_of_le_of_ne hle hne.symm)]
    rfl
  rw [Model.next]
  split
  · rename_i k' hFind
    obtain ⟨hFound, j, hj, hGet, hBefore⟩ := List.find?_eq_some_iff_getElem.mp hFind
    obtain ⟨hlt, hSome⟩ := Bool.and_eq_true_iff.mp hFound
    have hlt := of_decide_eq_true hlt
    have hOrdinal : D.ordinal k' = j := hD.ordinal_eq (List.getElem?_eq_some_iff.mpr ⟨hj, hGet⟩)
    refine ⟨hlt.le, (hD.ordinal_lt k').le, ?_, ?_⟩
    · intro i hi hik
      rw [hOrdinal] at hik
      have hNot := hBefore i hik
      cases hDead : (Function.update (D.spread m) (D.ordinal k) none i).isSome with
      | false => rfl
      | true =>
        rw [hLive (List.getElem?_eq_getElem (hik.trans hj)) hDead hi] at hNot
        cases hNot
    · intro _
      rw [Function.update_of_ne hlt.ne', hD.spread_ordinal, hSome]
  · rename_i hFind
    refine ⟨(hD.ordinal_lt k).le, le_rfl, ?_, fun hlt => absurd hlt (lt_irrefl _)⟩
    intro i hi hlt
    obtain ⟨k', hk'⟩ := hD.exists_key hlt
    cases hDead : (Function.update (D.spread m) (D.ordinal k) none i).isSome with
    | false => rfl
    | true => exact absurd (hLive hk' hDead hi) (List.find?_eq_none.mp hFind k' (List.mem_of_getElem? hk'))

/-- The table answers every question about its keys as the partial function does. -/
structure Agrees (t : Table D ν) (m : κ → Option ν) : Prop where
  size : t.size = {k | (m k).isSome = true}.ncard
  contains : ∀ k, t.contains k = (m k).isSome
  multiplicity : ∀ k, t.multiplicity k = if (m k).isSome then 1 else 0
  get : ∀ k, t.get? k = .ok (m k)
  require : ∀ P site k, t.require P site k = match m k with
    | some v => .ok v
    | none => .error (.refused (P.refuse site (.outOfRange (D.ordinal k) {k | (m k).isSome = true}.ncard)))
  find : ∀ a k, t.find a k = .ok (D.position a (if (m k).isSome then D.ordinal k else D.count))
  entry : ∀ a k, (t.find a k >>= fun p => (t.entry p).1) = match m k with
    | some v => .ok { ordinal := D.ordinal k, key := k, value := v }
    | none => .error (.vacantPosition D.count)

theorem size_eq_ncard (hD : D.Lawful) (m : κ → Option ν) : Model.size D m = {k | (m k).isSome = true}.ncard := by
  rw [hD.ncard_eq_length, Model.size, List.countP_eq_length_filter]

theorem Shows.agrees (hD : D.Lawful) (h : t.Shows (D.spread m)) : t.Agrees m := by
  have hContains : ∀ k, t.contains k = (m k).isSome := by
    intro k
    rw [h.contains, hD.spread_ordinal]
  have hSize : t.size = {k | (m k).isSome = true}.ncard := by
    rw [h.size_eq_countP hD, size_eq_ncard hD]
  have hFind : ∀ a k, t.find a k = .ok (D.position a (if (m k).isSome then D.ordinal k else D.count)) := by
    intro a k
    rw [Table.find, h.holds, hD.spread_ordinal]
    split
    · exact t.positionAt_forward (hD.ordinal_lt k).le
    · exact t.positionAt_forward le_rfl
  refine ⟨hSize, hContains, ?_, ?_, ?_, hFind, ?_⟩
  · intro k
    rw [Table.multiplicity, hContains]
    cases (m k).isSome <;> rfl
  · intro k
    rw [h.get, hD.spread_ordinal]
  · intro P site k
    rw [Table.require, hContains, absent, ← hSize]
    cases hk : m k with
    | none => rfl
    | some v =>
      rw [← hD.spread_ordinal m] at hk
      exact h.valueAt hk
  · intro a k
    rw [hFind]
    cases hk : m k with
    | none =>
      have hCount : D.spread m D.count = none := by
        rw [Domain.spread, List.getElem?_eq_none hD.sizes.1.le]
        rfl
      exact entryAt_eq_error h hCount
    | some v =>
      rw [← hD.spread_ordinal m] at hk
      exact entryAt_ordinal hD h hk

theorem Shows.agrees_ordinal (hD : D.Lawful) {m : Nat → Option ν} (h : t.Shows m) :
    t.Agrees fun k => m (D.ordinal k) :=
  (h.spread hD).agrees hD

/-- The action ends as the model says: with this result or fault, and with a
table that shows this partial function. -/
def Realizes (x : Action D ν α) (t : Table D ν) (r : Except Fault α × (κ → Option ν)) : Prop :=
  Ends x t (fun a u => r.1 = .ok a ∧ u.Shows (D.spread r.2)) (fun f u => r.1 = .error f ∧ u.Shows (D.spread r.2))

variable [DecidableEq κ]

theorem emplace_realizes (hD : D.Lawful) (h : t.Shows (D.spread m)) {σ : Type} (k : κ)
    (make : σ → Except String ν × σ) (s : σ) :
    Realizes (emplace k (fun s => (raising (make s).1, (make s).2)) s) t
      (Model.perform D m (.emplace k make s)) := by
  have hEnds := emplace_ends h k (fun s => (raising (make s).1, (make s).2)) s
  rw [hD.spread_ordinal] at hEnds
  rw [Model.perform]
  cases hk : m k with
  | some v =>
    rw [hk] at hEnds
    apply hEnds.mono
    · rintro _ u ⟨rfl, hu⟩
      exact ⟨rfl, hu⟩
    · rintro f u (⟨hf, _⟩ | ⟨hNone, _⟩)
      · exact absurd hf (hD.not_misfit k f)
      · cases hNone
  | none =>
    rw [hk] at hEnds
    cases hMake : (make s).1 with
    | ok v =>
      rw [hMake] at hEnds
      apply hEnds.mono
      · rintro _ u ⟨_, ⟨⟩, rfl, hu⟩
        rw [← hD.spread_update] at hu
        exact ⟨rfl, hu⟩
      · rintro f u (⟨hf, _⟩ | ⟨_, hError, _⟩)
        · exact absurd hf (hD.not_misfit k f)
        · cases hError
    | error message =>
      rw [hMake] at hEnds
      apply hEnds.mono
      · rintro _ u ⟨_, hOk, _⟩
        cases hOk
      · rintro f u (⟨hf, _⟩ | ⟨_, ⟨⟩, rfl⟩)
        · exact absurd hf (hD.not_misfit k f)
        · exact ⟨rfl, h⟩

theorem modifyRequired_realizes (hD : D.Lawful) (h : t.Shows (D.spread m)) (P : Policy)
    (site : String) (k : κ) (f : ν → ν) :
    Realizes (modifyRequired P site k f) t (Model.perform D m (.modifyRequired P site k f)) := by
  have hEnds := modifyRequired_ends h P site k f
  rw [hD.spread_ordinal] at hEnds
  rw [Model.perform]
  cases hk : m k with
  | some v =>
    rw [hk] at hEnds
    apply hEnds.mono
    · rintro _ u ⟨_, ⟨⟩, rfl, hu⟩
      rw [← hD.spread_update] at hu
      exact ⟨rfl, hu⟩
    · rintro e u ⟨hNone, _⟩
      cases hNone
  | none =>
    rw [hk] at hEnds
    apply hEnds.mono
    · rintro _ u ⟨_, hSome, _⟩
      cases hSome
    · rintro e u ⟨_, rfl, rfl⟩
      rw [absent, h.size_eq_countP hD]
      exact ⟨rfl, h⟩

theorem takeEntry_realizes (hD : D.Lawful) (h : t.Shows (D.spread m)) (k : κ) :
    Realizes (Table.takeEntry? k) t (Model.perform D m (.takePair? k)) := by
  refine (takeEntry_ends h k).mono ?_ fun f u hf => absurd hf.1 (hD.not_misfit k f)
  rintro r u ⟨hr, hKey, hu⟩
  rw [← hD.spread_update] at hu
  rw [hD.spread_ordinal] at hr
  constructor
  · rw [Model.perform, ← hr]
    cases r with
    | none => rfl
    | some p =>
      have hEq := hKey p rfl
      rw [hD.getElem_ordinal, Option.some.injEq] at hEq
      rw [hEq]
      rfl
  · exact hu

variable [Disposal ν] [Disposal.Quiet ν]

theorem eraseAt_realizes (hD : D.Lawful) (h : t.Shows (D.spread m)) (k : κ) :
    Realizes (eraseAt k) t (Model.perform D m (.eraseAt k)) := by
  have hEnds := eraseAt_ends h k
  rw [hD.spread_ordinal] at hEnds
  rw [Model.perform]
  cases hk : m k with
  | some v =>
    rw [hk] at hEnds
    apply hEnds.mono
    · rintro _ u ⟨_, rfl, hu⟩
      rw [liveFrom_eq_next hD hu]
      rw [← hD.spread_update] at hu
      exact ⟨rfl, hu⟩
    · rintro f u (⟨hNone, _⟩ | ⟨hStops, _⟩)
      · cases hNone
      · exact absurd hStops Disposal.Quiet.not_stopsOn
  | none =>
    rw [hk] at hEnds
    apply hEnds.mono
    · rintro _ u ⟨hSome, _⟩
      exact absurd rfl hSome
    · rintro f u (⟨_, rfl, rfl⟩ | ⟨hStops, _⟩)
      · exact ⟨rfl, h⟩
      · exact absurd hStops Disposal.Quiet.not_stopsOn

theorem run_realizes (hD : D.Lawful) (h : t.Shows (D.spread m)) (op : KeyOperation κ ν α) :
    Realizes op.run t (Model.perform D m op) := by
  have hMisfit := hD.not_misfit
  cases op with
  | insert k v =>
    apply (insert_ends h k v).mono
    · rintro _ u ⟨rfl, hu⟩
      rw [← hD.spread_add] at hu
      rw [hD.spread_ordinal, Option.not_isSome]
      exact ⟨rfl, hu⟩
    · exact fun f u hf => absurd hf.1 (hD.not_misfit_or_stops k _ f)
  | assign k v =>
    apply (assign_ends h k v).mono
    · rintro _ u ⟨rfl, hu⟩
      rw [← hD.spread_update] at hu
      rw [hD.spread_ordinal, Option.not_isSome]
      exact ⟨rfl, hu⟩
    · exact fun f u hf => absurd hf.1 (hD.not_misfit_or_stops k _ f)
  | emplace k make s => exact emplace_realizes hD h k make s
  | modifyOrInsert k initial f =>
    apply (modifyOrInsert_ends h k initial f).mono
    · rintro _ u ⟨rfl, hu⟩
      rw [hD.spread_ordinal, ← hD.spread_update] at hu
      rw [hD.spread_ordinal]
      exact ⟨rfl, hu⟩
    · exact fun e u he => absurd he.1 (hMisfit k e)
  | modify? k f =>
    refine (modify?_ends h k f).mono ?_ fun e u => False.elim
    rintro _ u ⟨rfl, hu⟩
    rw [hD.spread_ordinal, ← hD.spread_update] at hu
    rw [hD.spread_ordinal]
    exact ⟨rfl, hu⟩
  | modifyRequired P site k f => exact modifyRequired_realizes hD h P site k f
  | insertMany pairs =>
    apply (insertMany_ends h pairs).mono
    · intro _ u hu
      rw [← hD.spread_foldl] at hu
      exact ⟨rfl, hu⟩
    · rintro f u ⟨⟨p, _, hf⟩ | hStops, _⟩
      · exact absurd hf (hMisfit p.1 f)
      · exact absurd hStops Disposal.Quiet.not_stops
  | erase k =>
    apply (erase_ends h k).mono
    · rintro _ u ⟨rfl, hu⟩
      rw [← hD.spread_update] at hu
      rw [hD.spread_ordinal]
      exact ⟨congrArg Except.ok (Bool.cond_eq_ite ..).symm, hu⟩
    · exact fun f u hf => absurd hf.1 Disposal.Quiet.not_stopsOn
  | eraseAt k => exact eraseAt_realizes hD h k
  | take? k =>
    refine (take?_ends h k).mono ?_ fun f u hf => absurd hf.1 (hMisfit k f)
    rintro _ u ⟨rfl, hu⟩
    rw [← hD.spread_update] at hu
    rw [hD.spread_ordinal]
    exact ⟨rfl, hu⟩
  | takePair? k => exact takeEntry_realizes hD h k
  | clear =>
    apply (clear_ends h).mono
    · intro _ u hu
      rw [← D.spread_none] at hu
      exact ⟨rfl, hu⟩
    · rintro f u ⟨⟨_, hf⟩, -⟩
      exact absurd hf Disposal.Quiet.not_stopsOn

end Table

end OrdinalMap
