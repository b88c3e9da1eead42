import OrdinalMap.Proofs.Table.Keyed
import OrdinalMap.Operation

/-! # Insertions and removals that fail

An insertion writes its slot before it marks it, so that one that finds no room may
leave a value behind, but never an entry. A removal looks for the key before it
changes anything. Of a bulk insertion that fails, a prefix has been inserted. Values
are given up when all else is done.
-/

namespace OrdinalMap

set_option autoImplicit false

variable {κ ν α : Type} {D : Domain κ}

/-- Tables have a slot for the ordinal and can record it. -/
def Domain.HasRoom (D : Domain κ) (i : Nat) : Prop := i < D.slots ∧ i < D.capacity

namespace KeyOperation

/-- The operation inserts one entry, for this key, or changes the one that is there. -/
inductive Inserts : {α : Type} → KeyOperation κ ν α → κ → Prop
  | insert (k : κ) (v : ν) : Inserts (.insert k v) k
  | assign (k : κ) (v : ν) : Inserts (.assign k v) k
  | emplace {σ : Type} (k : κ) (make : σ → Except String ν × σ) (s : σ) : Inserts (.emplace k make s) k
  | modifyOrInsert (k : κ) (initial : ν) (f : ν → ν) : Inserts (.modifyOrInsert k initial f) k
  | insertMany (k : κ) (v : ν) : Inserts (.insertMany [(k, v)]) k

/-- The operation gives out the entry of this key. -/
inductive Removes : {α : Type} → KeyOperation κ ν α → κ → Prop
  | take? (k : κ) : Removes (.take? k) k
  | takePair? (k : κ) : Removes (.takePair? k) k

end KeyOperation

namespace Table

variable {t u : Table D ν} {m : Nat → Option ν} {i : Nat}

theorem Shows.hasRoom (h : t.Shows m) {v : ν} (hi : m i = some v) : D.HasRoom i :=
  ⟨h.lt_slots hi, h.lt_capacity hi⟩

theorem Shows.hasRoom_update {v : ν} (h : t.Shows (Function.update m i (some v))) : D.HasRoom i :=
  h.hasRoom (Function.update_self ..)

section Disposal

variable [Disposal ν]

/-- The entries are as they were, unless the entry was made and its position is past the
end, or the value that it had before could not be given up. -/
def Spared (m : Nat → Option ν) (i : Nat) (f : Fault) (u : Table D ν) : Prop :=
  u.Shows m ∨ (f = .pastEnd i D.count ∨ Disposal.StopsOn (m i) f) ∧ D.HasRoom i

theorem place_spares {g : Position .writable .forward → α} (h : D.HasRoom i) (u : Table D ν) :
    Ends (do return g (← place i)) u (fun _ _ => D.HasRoom i) (Spared m i) := by
  refine ends_bind.mpr (ends_inspect (fun _ _ => h) fun f hf => .inr ⟨.inl ?_, h⟩)
  obtain hi | hi := Nat.lt_or_ge D.count i
  · rw [positionAt_of_lt u hi] at hf
    exact (Except.error.inj hf).symm
  · rw [positionAt_forward u hi] at hf
    cases hf

theorem constructNew_spares (h : t.Shows m) (i : Nat) (v : ν) :
    Ends (constructNew i v) t (fun _ _ => D.HasRoom i) (fun _ u => u.Shows m) :=
  (constructNew_ends h i v).mono (fun _ _ hu => hu.2.hasRoom_update) fun _ _ hf => hf.2

omit [Disposal ν] in
theorem construct_spares (h : t.Shows m) (hi : m i = none) (v : ν) :
    Ends (construct i v) t (fun _ _ => D.HasRoom i) (fun _ u => u.Shows m) :=
  (construct_ends h hi v).mono (fun _ _ hu => hu.hasRoom_update) fun _ _ hf => hf.2

theorem insert_spares (h : t.Shows m) (k : κ) (v : ν) :
    Ends (insert k v) t (fun _ _ => D.HasRoom (D.ordinal k)) (Spared m (D.ordinal k)) := by
  apply (constructNew_spares h (D.ordinal k) v).bind
  · exact fun new u hRoom => place_spares hRoom u
  · exact fun _ _ hu => .inl hu

theorem assign_spares (h : t.Shows m) (k : κ) (v : ν) :
    Ends (assign k v) t (fun _ _ => D.HasRoom (D.ordinal k)) (Spared m (D.ordinal k)) := by
  rw [assign, ends_get_bind, h.contains]
  cases hi : m (D.ordinal k) with
  | none =>
    apply (construct_spares h hi v).bind
    · exact fun _ u hRoom => place_spares hRoom u
    · exact fun _ _ hu => .inl hu
  | some w =>
    apply (overwrite_ends h hi v).bind
    · exact fun _ u _ => place_spares (h.hasRoom hi) u
    · exact fun _ _ hf => .inr ⟨.inr hf.1, h.hasRoom hi⟩

theorem emplace_spares {σ : Type} (h : t.Shows m) (k : κ) (make : σ → Except Fault ν × σ) (s : σ) :
    Ends (emplace k make s) t (fun _ _ => D.HasRoom (D.ordinal k)) (Spared m (D.ordinal k)) := by
  rw [emplace, ends_get_bind, h.contains]
  cases hi : m (D.ordinal k) with
  | some w => exact place_spares (h.hasRoom hi) t
  | none =>
    refine ends_bind.mpr (ends_inspect ?_ fun _ _ => .inl h)
    intro v _
    apply (construct_spares h hi v).bind
    · exact fun _ u hRoom => place_spares hRoom u
    · exact fun _ _ hu => .inl hu

theorem insertMany_singleton_spares (h : t.Shows m) (p : κ × ν) :
    Ends (insertMany [p]) t (fun _ _ => D.HasRoom (D.ordinal p.1)) (fun _ u => u.Shows m) := by
  apply (constructNew_spares h (D.ordinal p.1) p.2).discard.bind
  · rintro _ u ⟨_, hRoom⟩
    exact hRoom
  · exact fun _ _ hu => hu

/-- The pairs before the one that fails have been inserted. -/
theorem insertMany_error {pairs : List (κ × ν)} {f : Fault} (h : insertMany pairs t = .error f u) :
    ∃ j w, ∃ hj : j < pairs.length, insertMany (pairs.take j) t = .ok () w ∧ insertMany [pairs[j]] w = .error f u := by
  induction pairs generalizing t with
  | nil => cases h
  | cons p pairs ih =>
    -- what follows the first pair matters only if that one could be inserted
    have hCons : ∀ rest : List (κ × ν), insertMany (p :: rest) t =
        match constructNew (D.ordinal p.1) p.2 t with
        | .ok _ w => insertMany rest w
        | .error f w => .error f w := by
      intro rest
      simp only [insertMany, discard_eq_bind, bind, EStateM.bind]
      cases constructNew (D.ordinal p.1) p.2 t <;> rfl
    rw [hCons] at h
    cases hRun : constructNew (D.ordinal p.1) p.2 t with
    | ok new w =>
      rw [hRun] at h
      obtain ⟨j, w', hj, hTake, hFail⟩ := ih h
      refine ⟨j + 1, w', Nat.succ_lt_succ hj, ?_, hFail⟩
      rw [List.take_succ_cons, hCons, hRun]
      exact hTake
    | error g w =>
      rw [hRun] at h
      refine ⟨0, t, Nat.succ_pos _, rfl, ?_⟩
      rw [List.getElem_cons_zero, hCons, hRun]
      exact h

end Disposal

end Table

variable [Disposal ν] {t : Table D ν} {m : Nat → Option ν}

theorem KeyOperation.Inserts.spares {op : KeyOperation κ ν α} {k : κ} (hOp : op.Inserts k) (h : t.Shows m) :
    Ends op.run t (fun _ _ => D.HasRoom (D.ordinal k)) (Table.Spared m (D.ordinal k)) := by
  cases hOp with
  | insert _ v => exact Table.insert_spares h k v
  | assign _ v => exact Table.assign_spares h k v
  | emplace _ make s => exact Table.emplace_spares h k (fun s => (raising (make s).1, (make s).2)) s
  | modifyOrInsert _ initial f =>
    exact (Table.modifyOrInsert_ends h k initial f).mono (fun _ _ hu => hu.2.hasRoom_update) fun _ _ hf => .inl hf.2
  | insertMany _ v => exact (Table.insertMany_singleton_spares h (k, v)).mono (fun _ _ h => h) fun _ _ => .inl

theorem KeyOperation.Removes.spares {op : KeyOperation κ ν α} {k : κ} (hOp : op.Removes k) (h : t.Sound) :
    Ends op.run t (fun _ _ => t.contains k = true → D.ordinal k < D.values.length) (fun _ u => u = t) := by
  have hEntry : Ends (Table.takeEntry? k) t
      (fun _ _ => t.contains k = true → D.ordinal k < D.values.length) (fun _ u => u = t) := by
    apply (Table.takeEntry_ends h.shows k).mono
    · rintro r u ⟨hValue, hKey, -⟩ hContains
      obtain ⟨v, hv⟩ := h.shows.exists_of_holds hContains
      rw [hv] at hValue
      obtain ⟨p, rfl, -⟩ := Option.map_eq_some_iff.mp hValue
      exact (List.getElem?_eq_some_iff.mp (hKey p rfl)).1
    · exact fun _ _ hf => hf.2
  cases hOp with
  | take? => exact hEntry.bind (fun _ _ h => h) fun _ _ h => h
  | takePair? => exact hEntry

end OrdinalMap
