import OrdinalMap.Course
import OrdinalMap.TwoEnded

/-! # Schedules of pulls

What a schedule of pulls yields, and how schedules are put together.
-/

namespace OrdinalMap

set_option autoImplicit false

variable {σ α : Type}

/-- Taking `a` off an end of a list leaves `rest`. -/
def End.Takes : End → List α → α → List α → Prop
  | .front, as, a, rest => as = a :: rest
  | .back, as, a, rest => as = rest ++ [a]

theorem End.Takes.perm {e : End} {as rest : List α} {a : α} (h : e.Takes as a rest) : as.Perm (a :: rest) := by
  cases e with
  | front => exact h ▸ .refl _
  | back =>
    rw [show as = rest ++ [a] from h]
    exact List.perm_append_singleton a rest

theorem End.Takes.sublist {e : End} {as rest : List α} {a : α} (h : e.Takes as a rest) :
    rest.Sublist as := by
  cases e with
  | front => exact h ▸ List.sublist_cons_self a rest
  | back => exact h ▸ List.sublist_append_left rest [a]

theorem End.Takes.unique {e : End} {as rest rest' : List α} {a a' : α} (h : e.Takes as a rest)
    (h' : e.Takes as a' rest') : a = a' ∧ rest = rest' := by
  cases e with
  | front => exact List.cons_eq_cons.mp (h.symm.trans h')
  | back =>
    obtain ⟨hRest, hLast⟩ := List.append_inj' (h.symm.trans h') rfl
    exact ⟨List.singleton_inj.mp hLast, hRest⟩

def yielded (rs : List (Except Fault (Option α))) : List α :=
  rs.filterMap fun
    | .ok r => r
    | .error _ => none

theorem yielded_cons (r : Except Fault (Option α)) (rs : List (Except Fault (Option α))) :
    yielded (r :: rs) = yielded [r] ++ yielded rs := by
  rw [yielded, yielded, yielded, ← List.filterMap_append]
  rfl

theorem mem_yielded {rs : List (Except Fault (Option α))} {a : α} : a ∈ yielded rs ↔ .ok (some a) ∈ rs := by
  rw [yielded, List.mem_filterMap]
  constructor
  · rintro ⟨r, hr, ha⟩
    cases r with
    | ok o => rwa [← show o = some a from ha]
    | error f => cases ha
  · exact fun hr => ⟨.ok (some a), hr, rfl⟩

theorem yielded_map {β : Type} (g : α → β) (rs : List (Except Fault (Option α))) :
    yielded (rs.map (Except.map (Option.map g))) = (yielded rs).map g := by
  rw [yielded, yielded, List.filterMap_map, List.map_filterMap]
  congr 1
  funext r
  cases r <;> rfl

def yieldedAt (e : End) : List End → List (Except Fault (Option α)) → List α
  | e' :: es, r :: rs => (if e' = e then yielded [r] else []) ++ yieldedAt e es rs
  | _, _ => []

namespace TwoEnded

variable {z : TwoEnded σ α}

theorem run_eq_course (z : TwoEnded σ α) (es : List End) (s : σ) : z.run es s = course z.pull es s := by
  induction es generalizing s with
  | nil => rfl
  | cons e es ih =>
    rw [run, course]
    cases z.pull e s with
    | ok r u => simp only [ih u]
    | error f u => simp only [ih u]

theorem length_run (es : List End) (s : σ) : (z.run es s).1.length = es.length := by
  induction es generalizing s with
  | nil => rfl
  | cons e es ih =>
    rw [run]
    cases z.pull e s with
    | ok r u => exact congrArg Nat.succ (ih u)
    | error f u => exact congrArg Nat.succ (ih u)

end TwoEnded

theorem perm_yielded {es : List End} {rs : List (Except Fault (Option α))} (h : rs.length = es.length) :
    (yielded rs).Perm (yieldedAt .front es rs ++ yieldedAt .back es rs) := by
  induction es generalizing rs with
  | nil =>
    rw [List.length_eq_zero_iff.mp h]
    exact .refl []
  | cons e es ih =>
    cases rs with
    | nil => exact .refl []
    | cons r rs =>
      have hRest := (ih (Nat.succ.inj h)).append_left (yielded [r])
      rw [yielded_cons]
      cases e with
      | front =>
        apply hRest.trans
        rw [← List.append_assoc]
        exact .refl _
      | back =>
        apply hRest.trans
        rw [yieldedAt, yieldedAt, if_neg nofun, if_pos rfl, List.nil_append, ← List.append_assoc,
          ← List.append_assoc]
        exact List.perm_append_comm.append_right _

end OrdinalMap
