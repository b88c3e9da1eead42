import OrdinalMap.Proofs.Ends
import OrdinalMap.Proofs.TwoEnded

/-! # Two runs side by side

Two actions, each on a state of its own, are compared by what relates their
results or their faults and the states that they leave. Two sources whose pulls
always compare yield the same over every schedule.
-/

namespace OrdinalMap

set_option autoImplicit false

variable {σ τ α β γ δ : Type}

/-- The two actions both end with results that `Q` relates, or both with faults that `E` relates. -/
def Twin (x : EStateM Fault σ α) (y : EStateM Fault τ β) (s : σ) (u : τ) (Q : α → β → σ → τ → Prop)
    (E : Fault → Fault → σ → τ → Prop) : Prop :=
  match x s, y u with
  | .ok a s', .ok b u' => Q a b s' u'
  | .error f s', .error g u' => E f g s' u'
  | _, _ => False

variable {x : EStateM Fault σ α} {y : EStateM Fault τ β} {s : σ} {u : τ} {P Q : α → β → σ → τ → Prop}
  {F E : Fault → Fault → σ → τ → Prop}

theorem Twin.ran (h : Twin x y s u Q E) :
    (∃ a s' b u', x s = .ok a s' ∧ y u = .ok b u' ∧ Q a b s' u') ∨
      ∃ f s' g u', x s = .error f s' ∧ y u = .error g u' ∧ E f g s' u' := by
  unfold Twin at h
  cases hx : x s with
  | ok a s' =>
    cases hy : y u with
    | ok b u' =>
      rw [hx, hy] at h
      exact .inl ⟨a, s', b, u', rfl, rfl, h⟩
    | error g u' =>
      rw [hx, hy] at h
      cases h
  | error f s' =>
    cases hy : y u with
    | ok b u' =>
      rw [hx, hy] at h
      cases h
    | error g u' =>
      rw [hx, hy] at h
      exact .inr ⟨f, s', g, u', rfl, rfl, h⟩

theorem Twin.mono (h : Twin x y s u P F) (hQ : ∀ a b s' u', P a b s' u' → Q a b s' u')
    (hE : ∀ f g s' u', F f g s' u' → E f g s' u') : Twin x y s u Q E := by
  revert h
  unfold Twin
  cases x s with
  | ok a s' =>
    cases y u with
    | ok b u' => exact hQ a b s' u'
    | error g u' => exact id
  | error f s' =>
    cases y u with
    | ok b u' => exact id
    | error g u' => exact hE f g s' u'

theorem twin_of_ok {a : α} {b : β} {s' : σ} {u' : τ} (hx : x s = .ok a s') (hy : y u = .ok b u')
    (h : Q a b s' u') : Twin x y s u Q E := by
  rw [Twin, hx, hy]
  exact h

theorem twin_of_error {f g : Fault} {s' : σ} {u' : τ} (hx : x s = .error f s') (hy : y u = .error g u')
    (h : E f g s' u') : Twin x y s u Q E := by
  rw [Twin, hx, hy]
  exact h

theorem twin_get_bind {k : σ → EStateM Fault σ γ} {l : τ → EStateM Fault τ δ} {R : γ → δ → σ → τ → Prop} :
    Twin (get >>= k) (get >>= l) s u R E ↔ Twin (k s) (l u) s u R E := Iff.rfl

theorem Twin.bind {k : α → EStateM Fault σ γ} {l : β → EStateM Fault τ δ} {R : γ → δ → σ → τ → Prop}
    (h : Twin x y s u P F) (hk : ∀ a b s' u', P a b s' u' → Twin (k a) (l b) s' u' R E)
    (hE : ∀ f g s' u', F f g s' u' → E f g s' u') : Twin (x >>= k) (y >>= l) s u R E := by
  obtain ⟨a, s', b, u', hx, hy, hP⟩ | ⟨f, s', g, u', hx, hy, hF⟩ := h.ran
  · simp only [Twin, Bind.bind, EStateM.bind, hx, hy]
    exact hk a b s' u' hP
  · simp only [Twin, Bind.bind, EStateM.bind, hx, hy]
    exact hE f g s' u' hF

section Courses

variable {κ : Type} {act : κ → EStateM Fault σ α} {R : σ → τ → Prop}

/-- Two commands that give the same, up to `g`, give the same over a course. -/
theorem course_twin {act' : κ → EStateM Fault τ β} {g : α → β}
    (hAct : ∀ c s u, R s u → Twin (act c) (act' c) s u
      (fun a b s' u' => b = g a ∧ R s' u') (fun f f' s' u' => f' = f ∧ R s' u'))
    (cs : List κ) (h : R s u) :
    (course act' cs u).1 = (course act cs s).1.map (Except.map g) ∧ R (course act cs s).2 (course act' cs u).2 := by
  induction cs generalizing s u with
  | nil => exact ⟨rfl, h⟩
  | cons c cs ih =>
    rw [course, course]
    obtain ⟨a, s', b, u', hs, hu, rfl, hNext⟩ | ⟨f, s', f', u', hs, hu, rfl, hNext⟩ := (hAct c s u h).ran
    · obtain ⟨hResults, hLast⟩ := ih hNext
      rw [hs, hu]
      exact ⟨List.cons_eq_cons.mpr ⟨rfl, hResults⟩, hLast⟩
    · obtain ⟨hResults, hLast⟩ := ih hNext
      rw [hs, hu]
      exact ⟨List.cons_eq_cons.mpr ⟨rfl, hResults⟩, hLast⟩

/-- The case in which both give results of one type, and the same ones. -/
theorem course_same {act' : κ → EStateM Fault τ α}
    (hAct : ∀ c s u, R s u → Twin (act c) (act' c) s u
      (fun a b s' u' => b = a ∧ R s' u') (fun f f' s' u' => f' = f ∧ R s' u'))
    (cs : List κ) (h : R s u) :
    (course act' cs u).1 = (course act cs s).1 ∧ R (course act cs s).2 (course act' cs u).2 := by
  have hId : Except.map id = (id : Except Fault α → _) := by
    funext r
    cases r <;> rfl
  have hCourse := course_twin (g := id) hAct cs h
  rwa [hId, List.map_id] at hCourse

end Courses

/-- Two sources that yield the same at each pull yield the same over a schedule. -/
theorem TwoEnded.run_twin {z : TwoEnded σ α} {z' : TwoEnded τ β} {g : α → β} {R : σ → τ → Prop}
    (hPull : ∀ e s u, R s u → Twin (z.pull e) (z'.pull e) s u
      (fun r r' s' u' => r' = r.map g ∧ R s' u') (fun f f' s' u' => f' = f ∧ R s' u'))
    (es : List End) {s : σ} {u : τ} (h : R s u) :
    (z'.run es u).1 = (z.run es s).1.map (Except.map (Option.map g)) ∧ R (z.run es s).2 (z'.run es u).2 := by
  rw [run_eq_course, run_eq_course]
  exact course_twin hPull es h

/-- The case in which both yield elements of one type, and the same ones. -/
theorem TwoEnded.run_same {z : TwoEnded σ α} {z' : TwoEnded τ α} {R : σ → τ → Prop}
    (hPull : ∀ e s u, R s u → Twin (z.pull e) (z'.pull e) s u
      (fun r r' s' u' => r' = r ∧ R s' u') (fun f f' s' u' => f' = f ∧ R s' u'))
    (es : List End) {s : σ} {u : τ} (h : R s u) :
    (z'.run es u).1 = (z.run es s).1 ∧ R (z.run es s).2 (z'.run es u).2 := by
  rw [run_eq_course, run_eq_course]
  exact course_same hPull es h

end OrdinalMap
