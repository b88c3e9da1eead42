import OrdinalMap.Proofs.Ends
import OrdinalMap.Proofs.TwoEnded

/-! # Regular faults

A fault is regular unless it is a breach. Whatever may fault is described by
what holds of its result, with the understanding that its faults are regular.
-/

namespace OrdinalMap

set_option autoImplicit false

variable {σ α β : Type}

def Fault.Regular (f : Fault) : Prop := ∀ b, f ≠ .breach b

def Settles (x : Except Fault α) (Q : α → Prop) : Prop :=
  match x with
  | .ok a => Q a
  | .error f => f.Regular

variable {x : Except Fault α} {P Q : α → Prop}

theorem Settles.mono (h : Settles x P) (hQ : ∀ a, P a → Q a) : Settles x Q := by
  cases x with
  | ok a => exact hQ a h
  | error f => exact h

theorem Settles.bind {k : α → Except Fault β} {R : β → Prop} (h : Settles x P)
    (hk : ∀ a, P a → Settles (k a) R) : Settles (x >>= k) R := by
  cases x with
  | ok a => exact hk a h
  | error f => exact h

theorem Settles.map {g : α → β} {R : β → Prop} (h : Settles x P) (hg : ∀ a, P a → R (g a)) :
    Settles (x.map g) R := by
  cases x with
  | ok a => exact hg a h
  | error f => exact h

theorem settles_of_eq_ok {a : α} (h : x = .ok a) (ha : Q a) : Settles x Q := by
  rw [h]
  exact ha

theorem settles_raising (x : Except String α) : Settles (raising x) fun _ => True := by
  cases x with
  | ok a => exact trivial
  | error message => exact nofun

theorem regular_cons {r : Except Fault α} {rs : List (Except Fault α)}
    (h : ∀ f, r = .error f → f.Regular) (hRest : ∀ f, .error f ∈ rs → f.Regular) :
    ∀ f, .error f ∈ r :: rs → f.Regular := by
  intro f hf
  obtain hEq | hf := List.mem_cons.mp hf
  · exact h f hEq.symm
  · exact hRest f hf

namespace TwoEnded

variable {z : TwoEnded σ α} {I : σ → Prop}

/-- What every pull keeps, faults or not, a schedule of pulls keeps. -/
theorem run_keeps
    (hPull : ∀ e s, I s → Ends (z.pull e) s (fun _ u => I u) (fun f u => f.Regular ∧ I u))
    (es : List End) (s : σ) (hs : I s) :
    I (z.run es s).2 ∧ ∀ f, .error f ∈ (z.run es s).1 → f.Regular := by
  rw [run_eq_course]
  exact course_keeps hPull es hs

theorem collect_ends
    (hPull : ∀ e s, I s → Ends (z.pull e) s (fun _ u => I u) (fun f u => f.Regular ∧ I u))
    (e : End) (limit : Nat) (s : σ) (hs : I s) :
    Ends (z.collect e limit) s (fun _ u => I u) (fun f u => f.Regular ∧ I u) := by
  induction limit generalizing s with
  | zero => exact hs
  | succ limit ih =>
    apply (hPull e s hs).bind
    · intro r u hu
      cases r with
      | none => exact hu
      | some a =>
        apply (ih u hu).bind
        · intro _ w hw
          exact hw
        · exact fun f w hf => hf
    · exact fun f u hf => hf

theorem drain_ends
    (hPull : ∀ e s, I s → Ends (z.pull e) s (fun _ u => I u) (fun f u => f.Regular ∧ I u))
    (e : End) (s : σ) (hs : I s) :
    Ends (z.drain e) s (fun _ u => I u) (fun f u => f.Regular ∧ I u) :=
  collect_ends hPull e _ s hs

end TwoEnded

end OrdinalMap
