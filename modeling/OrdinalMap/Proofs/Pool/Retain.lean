import OrdinalMap.Domain.Named
import OrdinalMap.Proofs.Pool
import OrdinalMap.Proofs.Table.Retain

/-! # What passes leave

A pass of a test over a table is told from the entries that the table has when it
begins: each is shown to the test once, in ascending order, with the state and the
value that the calls before and this one leave. Erasing by a test is such a pass.
-/

namespace OrdinalMap.Table

set_option autoImplicit false

variable {κ ν σ : Type} {D : Domain κ} [Disposal ν] [Disposal.Quiet ν]

/-- If no call faults there is one for each entry, as a test that writes down what it is
shown would tell, and those entries remain for which the test answers yes, with the
values that it leaves in them. Erasing by a test is the pass of its negation. It leaves
values alone, and its number is that of the calls that answer yes: the size after the
pass is never the greater one. -/
theorem passes_exact (hD : D.Lawful) {t : Table D ν} (ht : t.Reachable) (s : σ) :
    ∃ es, t.Lists es ∧
      (∀ keep : Test σ κ ν,
        (∃ u, retain keep s t = outcome (verdict keep es s) u ∧ u.Lists (sifted keep es s)) ∧
        ∀ s', verdict keep es s = .ok s' →
          (calls keep es s).map Prod.snd = es ∧ sifted keep es s = (calls keep es s).filterMap (remains keep) ∧
          ∃ u, retain (logged keep) (s, []) t = .ok (s', es.map fun e => (e.key, e.value)) u) ∧
      ∀ test : σ → κ → ν → Except Fault Bool × σ,
        (∃ u, retain (negated test) s t = outcome (verdict (negated test) es s) u ∧
          eraseIf test s t = outcome ((verdict (negated test) es s).map fun s' => (passing test es s, s')) u ∧
          passing test es s + u.size = t.size) ∧
        ∀ s', verdict (negated test) es s = .ok s' →
          sifted (negated test) es s =
            ((calls (negated test) es s).filter fun c => (test c.1 c.2.key c.2.value).1 ≠ .ok true).map Prod.snd := by
  have hShows := ht.sound.shows
  have hLists := hShows.lists hD
  refine ⟨_, hLists, ?_, ?_⟩
  · intro keep
    obtain ⟨w, hPass, -, hLeft⟩ := retain_lists hD hShows keep s
    refine ⟨⟨w, hPass, hLeft⟩, fun s' h => ⟨map_calls h, sifted_eq_filterMap h, ?_⟩⟩
    obtain ⟨u, hRetain, -, -⟩ := retain_lists hD hShows (logged keep) (s, [])
    refine ⟨u, ?_⟩
    rw [hRetain, verdict_logged h]
    rfl
  · intro test
    refine ⟨?_, fun s' h => sifted_negated h⟩
    obtain ⟨u, hRetain, -, hLeft⟩ := retain_lists hD hShows (negated test) s
    have hSizes := passing_add test (D.listing t.live D.count 0) s
    rw [← hLeft.size, ← hLists.size] at hSizes
    refine ⟨u, hRetain, ?_, hSizes⟩
    rw [eraseIf_of_retain (by omega) hRetain, ← hSizes, Nat.add_sub_cancel]

/-- The test keeps every second entry and adds to each the number of calls before. -/
theorem passes_exact_bool :
    let t : Table Domain.bool Nat :=
      (Pool.run [.call 0 (.keyed (.insert true 5)), .call 0 (.keyed (.insert false 6))] .start).2 0
    let keep : Test Nat Bool Nat := fun s _ v => (.ok (s % 2 == 1), v + s, s + 1)
    Domain.bool.Lawful ∧ t.Reachable ∧ ∃ u, retain keep 0 t = .ok 2 u ∧ u.entries = .ok [⟨1, true, 6⟩] := by
  intro t keep
  have ht : t.Reachable := ⟨_, _, 0, rfl⟩
  obtain ⟨es, hLists, hKeep, -⟩ := passes_exact Domain.bool_lawful ht (0 : Nat)
  obtain ⟨⟨u, hRetain, hLeft⟩, -⟩ := hKeep keep
  have hEntries : t.entries = .ok [⟨0, false, 6⟩, ⟨1, true, 5⟩] := by decide
  obtain rfl : es = [⟨0, false, 6⟩, ⟨1, true, 5⟩] := by
    rw [hLists.entries] at hEntries
    exact Except.ok.inj hEntries
  exact ⟨Domain.bool_lawful, ht, u, hRetain, hLeft.entries⟩

end OrdinalMap.Table
