import OrdinalMap.Course

/-! # How an action ends

An action that changes a state and may fault is described by what holds of its
result and of the fault, each together with the state that is left. The
description of a composed action is put together from those of its parts, and
what every action keeps a course of them keeps.
-/

namespace OrdinalMap

set_option autoImplicit false

variable {σ τ α β : Type}

/-- From `s` the action ends with a result that `Q` admits or a fault that `E` admits. -/
def Ends (x : EStateM Fault σ α) (s : σ) (Q : α → σ → Prop) (E : Fault → σ → Prop) : Prop :=
  match x s with
  | .ok a u => Q a u
  | .error f u => E f u

variable {x : EStateM Fault σ α} {s : σ} {P Q : α → σ → Prop} {F E : Fault → σ → Prop}

theorem Ends.ran (h : Ends x s Q E) :
    (∃ a u, x s = .ok a u ∧ Q a u) ∨ ∃ f u, x s = .error f u ∧ E f u := by
  unfold Ends at h
  cases hRun : x s with
  | ok a u =>
    rw [hRun] at h
    exact .inl ⟨a, u, rfl, h⟩
  | error f u =>
    rw [hRun] at h
    exact .inr ⟨f, u, rfl, h⟩

theorem Ends.mono (h : Ends x s P F) (hQ : ∀ a u, P a u → Q a u) (hE : ∀ f u, F f u → E f u) :
    Ends x s Q E := by
  revert h
  unfold Ends
  cases x s with
  | ok a u => exact hQ a u
  | error f u => exact hE f u

theorem Ends.and (h : Ends x s P F) (h' : Ends x s Q E) :
    Ends x s (fun a u => P a u ∧ Q a u) (fun f u => F f u ∧ E f u) := by
  revert h h'
  unfold Ends
  cases x s with
  | ok a u => exact And.intro
  | error f u => exact And.intro

theorem ends_true (x : EStateM Fault σ α) (s : σ) : Ends x s (fun _ _ => True) fun _ _ => True := by
  rw [Ends]
  split <;> trivial

theorem ends_bind {k : α → EStateM Fault σ β} {R : β → σ → Prop} :
    Ends (x >>= k) s R E ↔ Ends x s (fun a u => Ends (k a) u R E) E := by
  simp only [Ends, Bind.bind, EStateM.bind]
  cases x s <;> rfl

theorem Ends.bind {k : α → EStateM Fault σ β} {R : β → σ → Prop} (h : Ends x s P F)
    (hk : ∀ a u, P a u → Ends (k a) u R E) (hE : ∀ f u, F f u → E f u) : Ends (x >>= k) s R E :=
  ends_bind.mpr (h.mono hk hE)

@[simp]
theorem ends_get_bind {k : σ → EStateM Fault σ β} {R : β → σ → Prop} :
    Ends (get >>= k) s R E ↔ Ends (k s) s R E := Iff.rfl

theorem discard_eq_bind (x : EStateM Fault σ α) : discard x = x >>= fun _ => pure () := rfl

@[simp]
theorem ends_discard {Q : Unit → σ → Prop} :
    Ends (discard x) s Q E ↔ Ends x s (fun _ u => Q () u) E := by
  rw [discard_eq_bind]
  exact ends_bind

theorem Ends.discard (h : Ends x s P F) : Ends (discard x) s (fun _ u => ∃ a, P a u) F :=
  ends_discard.mpr (h.mono (fun a _ ha => ⟨a, ha⟩) fun _ _ hf => hf)

theorem tryFinally_eq (x : EStateM Fault σ α) (y : EStateM Fault σ β) (s : σ) :
    tryFinally x y s =
      match x s with
      | .ok a u =>
        match y u with
        | .ok _ w => .ok a w
        | .error e w => .error e w
      | .error f u =>
        match y u with
        | .ok _ w => .error f w
        | .error e w => .error e w := by
  simp only [tryFinally, tryFinally', Functor.map, EStateM.map]
  cases x s with
  | ok a u =>
    dsimp only
    cases y u <;> rfl
  | error f u =>
    dsimp only
    cases y u <;> rfl

/-- What is done at last is done after a fault, too, and then the fault comes out. -/
theorem Ends.tryFinally {y : EStateM Fault σ β} (h : Ends x s P F)
    (hQ : ∀ a u, P a u → Ends y u (fun _ w => Q a w) E)
    (hE : ∀ f u, F f u → Ends y u (fun _ w => E f w) E) : Ends (tryFinally x y) s Q E := by
  rw [Ends, tryFinally_eq]
  obtain ⟨a, u, hRun, hu⟩ | ⟨f, u, hRun, hu⟩ := h.ran
  · obtain ⟨_, w, hLast, hw⟩ | ⟨e, w, hLast, hw⟩ := (hQ a u hu).ran
    · simpa only [hRun, hLast] using hw
    · simpa only [hRun, hLast] using hw
  · obtain ⟨_, w, hLast, hw⟩ | ⟨e, w, hLast, hw⟩ := (hE f u hu).ran
    · simpa only [hRun, hLast] using hw
    · simpa only [hRun, hLast] using hw

theorem ends_change {f : σ → Except Fault σ} {Q : Unit → σ → Prop} (hQ : ∀ u, f s = .ok u → Q () u)
    (hE : ∀ e, f s = .error e → E e s) : Ends (change f) s Q E := by
  unfold Ends change
  cases h : f s with
  | ok u => exact hQ u h
  | error e => exact hE e h

theorem course_keeps {act : τ → EStateM Fault σ α} {I : σ → Prop} {X : Fault → Prop}
    (hAct : ∀ c s, I s → Ends (act c) s (fun _ u => I u) (fun f u => X f ∧ I u)) (cs : List τ) (hs : I s) :
    I (course act cs s).2 ∧ ∀ f, .error f ∈ (course act cs s).1 → X f := by
  induction cs generalizing s with
  | nil => exact ⟨hs, nofun⟩
  | cons c cs ih =>
    rw [course]
    obtain ⟨a, u, hRun, hu⟩ | ⟨g, u, hRun, hg, hu⟩ := (hAct c s hs).ran
    · obtain ⟨hLast, hFaults⟩ := ih hu
      rw [hRun]
      exact ⟨hLast, by simpa using hFaults⟩
    · obtain ⟨hLast, hFaults⟩ := ih hu
      rw [hRun]
      constructor
      · exact hLast
      · intro f hMem
        obtain hEq | hMem := List.mem_cons.mp hMem
        · cases hEq
          exact hg
        · exact hFaults f hMem

/-- What holds of the state after any one command, and then is kept, holds after a
course of at least one. -/
theorem course_reaches {act : τ → EStateM Fault σ α} {J I : σ → Prop}
    (hAct : ∀ c s, J s → Ends (act c) s (fun _ u => I u) fun _ u => I u) (hKept : ∀ s, I s → J s)
    {cs : List τ} (hNonempty : cs ≠ []) (hs : J s) : I (course act cs s).2 := by
  cases cs with
  | nil => exact absurd rfl hNonempty
  | cons c cs =>
    have hRest : ∀ u, I u → I (course act cs u).2 := by
      intro u hu
      refine (course_keeps (X := fun _ => True) ?_ cs hu).1
      intro c u hu
      exact (hAct c u (hKept u hu)).mono (fun _ _ h => h) fun _ _ h => ⟨trivial, h⟩
    rw [course]
    obtain ⟨a, u, hRun, hu⟩ | ⟨g, u, hRun, hu⟩ := (hAct c s hs).ran
    · rw [hRun]
      exact hRest u hu
    · rw [hRun]
      exact hRest u hu

end OrdinalMap
