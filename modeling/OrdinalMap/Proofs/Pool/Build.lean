import OrdinalMap.Proofs.Pool.Failure
import OrdinalMap.Proofs.Table.Build

/-! # The same table by different ways

Whatever way pairs take into a table, the first pair of each key counts, and the pairs
that count are in no order. A builder can be looked at and cloned on the way: it shows
the table of the pairs that it was given until then.
-/

namespace OrdinalMap.Table

set_option autoImplicit false

variable {κ ν : Type} {D : Domain κ} [DecidableEq κ] [Disposal ν] [Disposal.Quiet ν]

/-- After each call a builder shows what the table of all pairs given so far has: its size
is the number of their keys, and a clone that is asked for then is as the table of these
pairs. The clones change nothing in what is built. Bulk insertions into a table come to
one: a key keeps the value that it had, and else has the first one given for it. Pairs of
different keys can be given in any order, and nothing that is asked of the table later
tells which, nor does its recording. -/
theorem construction_exact (hD : D.Lawful) :
    (∀ {σ : Type} (copy : Copier σ ν), (∀ s v, (copy s v).1 = .ok v) → ∀ cs : List (Builder.Call σ κ ν),
      ∃ (stages : List (Builder.Stage D ν)) (b : Builder D ν),
        Builder.follow copy cs .empty = .ok (stages, b) ∧ stages.length = cs.length ∧
        (∀ (i : Nat) (c : Builder.Call σ κ ν) (stage : Builder.Stage D ν), cs[i]? = some c →
          stages[i]? = some stage → stage.Tells c (Builder.given (cs.take (i + 1)))) ∧
        b.build.RebuiltBy (Builder.given cs) ∧
        Builder.perform (cs.flatMap Builder.Call.steps) .empty = .ok b) ∧
    ∀ t : Table D ν, t.Reachable → ∀ pairs pairs' : List (κ × ν),
      (∃ u w, insertMany pairs t = .ok () u ∧ insertMany pairs' u = .ok () w ∧
        insertMany (pairs ++ pairs') t = .ok () w ∧
        (∀ k v, t.get? k = .ok (some v) → w.get? k = .ok (some v)) ∧
        ∀ k, t.get? k = .ok none → w.get? k = .ok ((pairs ++ pairs').lookup k)) ∧
      (pairs.Perm pairs' → (pairs.map Prod.fst).Nodup → ∃ u w, insertMany pairs t = .ok () u ∧
        insertMany pairs' t = .ok () w ∧ u.Untouched w ∧ ∀ [Recordable ν], w.record = u.record) := by
  constructor
  · intro σ copy hCopy cs
    obtain ⟨stages, b, hFollow, hLength, hStages, hb, hPerform⟩ := Builder.took_empty.follow hD hCopy cs
    exact ⟨stages, b, hFollow, hLength, hStages, hb.rebuilt hD, hPerform⟩
  · intro t ht pairs pairs'
    have hShows := ht.sound.shows.spread hD
    constructor
    · obtain ⟨u, hFirst, hu⟩ := insertMany_shows hD hShows pairs
      obtain ⟨w, hSecond, -⟩ := insertMany_shows hD hu pairs'
      obtain ⟨w', hBoth, hw⟩ := insertMany_shows hD hShows (pairs ++ pairs')
      have hSame : insertMany (pairs ++ pairs') t = .ok () w := by
        rw [insertMany_append]
        simp only [bind, EStateM.bind, hFirst, hSecond]
      rw [hSame] at hBoth
      cases hBoth
      refine ⟨u, w, hFirst, hSecond, hSame, ?_, ?_⟩
      · intro k v hk
        rw [hShows.get, hD.spread_ordinal, Except.ok.injEq] at hk
        rw [hw.get, hD.spread_ordinal, hk, Option.some_or]
      · intro k hk
        rw [hShows.get, hD.spread_ordinal, Except.ok.injEq] at hk
        rw [hw.get, hD.spread_ordinal, hk, Option.none_or]
    · intro hPerm hNodup
      obtain ⟨u, hRun, hu⟩ := insertMany_shows hD hShows pairs
      obtain ⟨w, hRun', hw⟩ := insertMany_shows hD hShows pairs'
      simp only [lookup_perm hPerm hNodup] at hw
      rw [← hu.live_eq] at hw
      have hAlike := Alike.of_live hu.sound hw.sound hw.live_eq
      exact ⟨u, w, hRun, hRun', hw.untouched hu.sound, hAlike.record⟩

/-- A clone taken before a key is given again, and pairs for a table that has one of the keys. -/
theorem construction_exact_bool :
    let cs : List (Builder.Call Unit Bool Nat) :=
      [.add (.insert true 5), .snapshot (), .add (.insertMany [(true, 7), (false, 6)])]
    let t : Table Domain.bool Nat := (Pool.run [.call 0 (.keyed (.insert true 5))] .start).2 0
    Domain.bool.Lawful ∧ t.Reachable ∧
      (∃ (stage : Builder.Stage Domain.bool Nat) (stages : List (Builder.Stage Domain.bool Nat))
        (b : Builder Domain.bool Nat), Builder.follow .exact cs .empty = .ok (stages, b) ∧ stages[1]? = some stage ∧
          stage.Tells (.snapshot () : Builder.Call Unit Bool Nat) [(true, 5)] ∧
          b.build.RebuiltBy [(true, 5), (true, 7), (false, 6)]) ∧
      (∃ w, insertMany [(true, 7), (false, 6), (false, 8)] t = .ok () w ∧ w.get? true = .ok (some 5) ∧
        w.get? false = .ok (some 6)) ∧
      ∃ u w, insertMany [(true, 7), (false, 6)] t = .ok () u ∧ insertMany [(false, 6), (true, 7)] t = .ok () w ∧
        u.Untouched w := by
  intro cs t
  have ht : t.Reachable := ⟨_, _, 0, rfl⟩
  obtain ⟨hBuilder, hBulk⟩ := construction_exact (ν := Nat) Domain.bool_lawful
  obtain ⟨stages, b, hFollow, hLength, hStages, hBuilt, -⟩ := hBuilder .exact (fun _ _ => rfl) cs
  have hlt : 1 < stages.length := by
    rw [hLength]
    decide
  have hStage := List.getElem?_eq_getElem hlt
  obtain ⟨⟨-, w, -, -, hBoth, hOld, hNew⟩, -⟩ := hBulk t ht [(true, 7), (false, 6)] [(false, 8)]
  obtain ⟨-, hPerm⟩ := hBulk t ht [(true, 7), (false, 6)] [(false, 6), (true, 7)]
  obtain ⟨u, u', hRun, hRun', hUntouched, -⟩ := hPerm (.swap ..) (by decide)
  exact ⟨Domain.bool_lawful, ht, ⟨_, stages, b, hFollow, hStage, hStages 1 _ _ rfl hStage, hBuilt⟩,
    ⟨w, hBoth, hOld true 5 (by decide), hNew false (by decide)⟩, u, u', hRun, hRun', hUntouched⟩

end OrdinalMap.Table
