import OrdinalMap.Proofs.Pool
import OrdinalMap.Proofs.Table.Recording

/-! # Tables as values of tables

The values of a table may be tables that programs have reached, and so on to any
depth. Since tables are recorded faithfully if their values are, so are these.
-/

namespace OrdinalMap

set_option autoImplicit false

/-- A table that some program has reached, as a value. -/
structure Reached {κ : Type} (D : Domain κ) (ν : Type) where
  table : Table D ν
  reachable : table.Reachable

/-- A type of values that can be compared and recorded. -/
structure Kind where
  Carrier : Type
  [beq : BEq Carrier]
  [recordable : Recordable Carrier]

attribute [instance] Kind.beq Kind.recordable

section

variable {κ ν : Type} {D : Domain κ}

instance [BEq ν] : BEq (Reached D ν) := ⟨fun t u => t.table == u.table⟩

instance [Recordable ν] : Recordable (Reached D ν) := ⟨fun t => Recordable.record t.table⟩

variable [BEq ν] [Recordable ν]

theorem Reached.record (hValue : Faithful ν) (t u : Reached D ν) :
    ∃ r s, Recordable.record t = .ok r ∧ Recordable.record u = .ok s ∧ (t == u) = decide (r = s) ∧
      (r <+: s → r = s) := by
  obtain ⟨r, s, hr, hs, hEqual, hPrefix⟩ := t.reachable.sound.shows.record hValue u.reachable.sound.shows
  exact ⟨r, s, hr, hs, Table.beq_of_equal hEqual, hPrefix⟩

theorem Reached.faithful (hValue : Faithful ν) : Faithful (Reached D ν) where
  total t := by
    obtain ⟨r, _, hr, _⟩ := t.record hValue t
    exact ⟨r, hr⟩
  beq_iff t u := by
    obtain ⟨r, s, hr, hs, hBeq, -⟩ := t.record hValue u
    rw [hBeq, decide_eq_true_iff, hr, hs, Except.ok.injEq]
  eq_of_prefix := by
    intro t u r s hr hs
    obtain ⟨r', s', hr', hs', -, hPrefix⟩ := t.record hValue u
    cases hr.symm.trans hr'
    cases hs.symm.trans hs'
    exact hPrefix

end

namespace Kind

/-- Tables whose values are tables, and so on, over these domains from the outermost
one on; the innermost tables have values of the given kind. -/
def nest (K : Kind) : List (Σ κ : Type, Domain κ) → Kind
  | [] => K
  | ⟨_, D⟩ :: Ds => { Carrier := Reached D (K.nest Ds).Carrier }

theorem faithful_nest {K : Kind} (hValue : Faithful K.Carrier) (Ds : List (Σ κ : Type, Domain κ)) :
    Faithful (K.nest Ds).Carrier := by
  induction Ds with
  | nil => exact hValue
  | cons D Ds ih => exact Reached.faithful ih

end Kind

namespace Table

/-- Integers and strings are recorded faithfully. If values are, then any two tables
that programs have reached over one domain are recorded, their recordings are the
same just if the tables are equal, and neither is a proper prefix of the other. So
tables of tables are recorded faithfully, to any depth. -/
theorem record_faithful :
    Faithful Int64 ∧ Faithful String ∧
      ∀ K : Kind, Faithful K.Carrier →
        (∀ (κ : Type) (D : Domain κ) (t u : Table D K.Carrier), t.Reachable → u.Reachable →
          ∃ r s, t.record = .ok r ∧ u.record = .ok s ∧ t.equal u = .ok (decide (r = s)) ∧ (r <+: s → r = s)) ∧
        ∀ Ds : List (Σ κ : Type, Domain κ), Faithful (K.nest Ds).Carrier := by
  refine ⟨faithful_int64, faithful_string, fun K hValue => ⟨?_, K.faithful_nest hValue⟩⟩
  intro κ D t u ht hu
  exact ht.sound.shows.record hValue hu.sound.shows

/-- The two tables were reached in different ways. -/
theorem record_faithful_bool :
    let t : Table Domain.bool Int64 := (Pool.run [.call 0 (.keyed (.insert true 5))] .start).2 0
    let u : Table Domain.bool Int64 := (Pool.run
      [.call 0 (.keyed (.insert false 6)), .call 0 (.keyed (.assign true 5)), .call 0 (.keyed (.erase false))] .start).2 0
    Faithful Int64 ∧ t.Reachable ∧ u.Reachable ∧ t.record = .ok [.size 1, .size 1, .int 5] ∧ t.record = u.record ∧
      t.equal u = .ok true ∧
      Faithful (Kind.nest { Carrier := Int64 } [⟨Bool, Domain.bool⟩, ⟨Bool, Domain.bool⟩]).Carrier := by
  intro t u
  have ht : t.Reachable := ⟨_, _, 0, rfl⟩
  have hu : u.Reachable := ⟨_, _, 0, rfl⟩
  have hRecord : t.record = .ok [.size 1, .size 1, .int 5] := by decide
  have hRecord' : u.record = .ok [.size 1, .size 1, .int 5] := by decide
  obtain ⟨hTables, hNested⟩ := record_faithful.2.2 { Carrier := Int64 } record_faithful.1
  obtain ⟨r, s, hr, hs, hEqual, -⟩ := hTables Bool Domain.bool t u ht hu
  cases hRecord.symm.trans hr
  cases hRecord'.symm.trans hs
  exact ⟨record_faithful.1, ht, hu, hRecord, hRecord.trans hRecord'.symm, hEqual, hNested _⟩

end Table

end OrdinalMap
