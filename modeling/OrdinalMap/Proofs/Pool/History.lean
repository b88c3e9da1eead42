import OrdinalMap.Proofs.Pool
import OrdinalMap.Proofs.Pool.Alike
import OrdinalMap.Proofs.Pool.Policy

/-! # What a table does not remember

Two programs may come to the same entries in different ways and leave different
values in vacant slots. On a lawful domain this shows nowhere: tables that answer
`get?` alike are read alike, and no program tells them apart, under whatever
policies it runs on either of them.
-/

namespace OrdinalMap

set_option autoImplicit false

variable {κ ν : Type} {D : Domain κ} {t u : Table D ν}

namespace Table

/-- On a lawful domain the entries are those that `get?` finds. -/
theorem Sound.alike_of_get (hD : D.Lawful) (ht : t.Sound) (hu : u.Sound) (h : ∀ k, t.get? k = u.get? k) :
    t.Alike u := by
  apply Alike.of_live ht hu
  apply hu.shows.eq_of_keys hD ht.shows
  intro k
  have hk := h k
  rw [ht.shows.get, hu.shows.get, Except.ok.injEq] at hk
  exact hk.symm

theorem equal_iff_get [BEq ν] (hD : D.Lawful) (ht : t.Sound) (hu : u.Sound) :
    ∃ b, t.equal u = .ok b ∧
      (b = true ↔ ∀ k, ∃ o o', t.get? k = .ok o ∧ u.get? k = .ok o' ∧ Matches o o') := by
  obtain ⟨b, hEqual, hb⟩ := ht.shows.equal hu.shows
  refine ⟨b, hEqual, hb.trans ((ht.shows.matches_iff hD hu.shows).trans (forall_congr' fun k => ?_))⟩
  rw [ht.shows.get, hu.shows.get]
  constructor
  · exact fun hMatches => ⟨_, _, rfl, rfl, hMatches⟩
  · rintro ⟨_, _, ⟨⟩, ⟨⟩, hMatches⟩
    exact hMatches

/-- What is read of the one table is read of the other: the number of entries, what
walks yield pull by pull from either end, where cursors stand, how they move and
what they find there, and the recording. -/
structure ReadsAs (t u : Table D ν) : Prop where
  size : u.size = t.size
  entries : u.entries = t.entries
  ofTable : ∀ a, Walk.ofTable a u = Walk.ofTable a t
  pulls : ∀ (a : Access) (es : List End) (w : Walk a), (Walk.ends u).run es w = (Walk.ends t).run es w
  first : ∀ a, u.first a = t.first a
  pastLast : ∀ a, u.pastLast a = t.pastLast a
  last : ∀ a, u.last a = t.last a
  beforeFirst : ∀ a, u.beforeFirst a = t.beforeFirst a
  find : ∀ a k, u.find a k = t.find a k
  motion : ∀ a, u.motion a = t.motion a
  entry : ∀ (a : Access) (d : Direction) (p : Position a d), u.entry p = t.entry p
  record : ∀ _ : Recordable ν, u.record = t.record

theorem Alike.readsAs (h : t.Alike u) : t.ReadsAs u where
  size := h.size
  entries := h.entries
  ofTable := h.ofTable
  pulls a es w := by rw [h.ends]
  first a := h.positionFrom a 0
  pastLast a := h.positionAt a .forward D.count
  last a := h.positionAt a .reverse D.count
  beforeFirst a := h.positionAt a .reverse 0
  find := h.find
  motion := h.motion
  entry _ _ := h.entry
  record _ := h.record

variable [Disposal ν]

/-- A program that goes on with one of the tables in some register, and the same
program under other policies with the other table there, give the same replies but
for what policies answer, and leave tables that answer `get?` alike everywhere. -/
def RunsAs (t u : Table D ν) : Prop :=
  ∀ (g : Policy → Policy) (cs : List (Command κ ν)) (P : Pool D ν) (r : Nat),
    List.Forall₂ (Reply.Under g) (Pool.run cs (P.put r t)).1 (Pool.run (cs.map (Command.under g)) (P.put r u)).1 ∧
      ∀ r' k, ((Pool.run (cs.map (Command.under g)) (P.put r u)).2 r').get? k =
        ((Pool.run cs (P.put r t)).2 r').get? k

theorem Alike.runsAs (h : t.Alike u) : t.RunsAs u := by
  intro g cs P r
  have hPools : (P.put r t).Alike (P.put r u) := Pool.Alike.put (fun i => .refl (P i)) r h
  -- the policies are changed for one of the tables first, then the tables are exchanged
  obtain ⟨hReplies, hTables⟩ := hPools.run (cs.map (Command.under g))
  obtain ⟨hUnder, hSame⟩ := Pool.run_under g (P.put r t) cs
  rw [hReplies]
  refine ⟨hUnder, fun r' k => ?_⟩
  rw [(hTables r').get, hSame]

/-- Tables that programs have reached over a lawful domain, each in its own way. They
are equal just if for every key both answer `get?` with nothing or with equal values,
and equality of tables inherits symmetry, transitivity and reflexivity from equality
of values. If they answer `get?` with identical values, they are read alike and
every program goes on with them alike. -/
theorem history_independent [BEq ν] (hD : D.Lawful) {t u s : Table D ν} (ht : t.Reachable) (hu : u.Reachable)
    (hs : s.Reachable) :
    (∃ b, t.equal u = .ok b ∧
      (b = true ↔ ∀ k, ∃ o o', t.get? k = .ok o ∧ u.get? k = .ok o' ∧ Matches o o')) ∧
    ((∀ v : ν, (v == v) = true) → t.equal t = .ok true) ∧
    ((∀ v w : ν, (v == w) = true → (w == v) = true) → t.equal u = .ok true → u.equal t = .ok true) ∧
    ((∀ v w x : ν, (v == w) = true → (w == x) = true → (v == x) = true) →
      t.equal u = .ok true → u.equal s = .ok true → t.equal s = .ok true) ∧
    ((∀ k, t.get? k = u.get? k) → t.ReadsAs u ∧ t.RunsAs u) := by
  have hShows := ht.sound.shows
  have hShows' := hu.sound.shows
  have hShows'' := hs.sound.shows
  refine ⟨equal_iff_get hD ht.sound hu.sound, ?_, ?_, ?_, ?_⟩
  · intro hValue
    rw [hShows.equal_iff hShows]
    exact fun i => .refl hValue _
  · intro hValue
    rw [hShows.equal_iff hShows', hShows'.equal_iff hShows]
    exact fun hEqual i => (hEqual i).symm hValue
  · intro hValue
    rw [hShows.equal_iff hShows', hShows'.equal_iff hShows'', hShows.equal_iff hShows'']
    exact fun hEqual hEqual' i => (hEqual i).trans hValue (hEqual' i)
  · intro hGet
    have hAlike := ht.sound.alike_of_get hD hu.sound hGet
    exact ⟨hAlike.readsAs, hAlike.runsAs⟩

/-- An erasure leaves its value behind, and the tables are not the same. -/
theorem history_independent_bool :
    let t : Table Domain.bool Nat := (Pool.run [.call 0 (.keyed (.insert true 5))] .start).2 0
    let u : Table Domain.bool Nat := (Pool.run
      [.call 0 (.keyed (.insert false 6)), .call 0 (.keyed (.assign true 5)), .call 0 (.keyed (.erase false))] .start).2 0
    Domain.bool.Lawful ∧ t.Reachable ∧ u.Reachable ∧ t.slots ≠ u.slots ∧ (∀ k, t.get? k = u.get? k) ∧
      t.ReadsAs u ∧ t.RunsAs u := by
  intro t u
  have ht : t.Reachable := ⟨_, _, 0, rfl⟩
  have hu : u.Reachable := ⟨_, _, 0, rfl⟩
  have hSlots : t.slots ≠ u.slots := by
    intro hEq
    have hFirst : t.slots[0] = .unwritten := by decide
    have hStale : u.slots[0] = .held 6 := by decide
    rw [← hEq, hFirst] at hStale
    cases hStale
  have hGet : ∀ k, t.get? k = u.get? k := by
    intro k
    cases k with
    | false => decide
    | true => decide
  exact ⟨Domain.bool_lawful, ht, hu, hSlots, hGet,
    (history_independent Domain.bool_lawful ht hu ht).2.2.2.2 hGet⟩

end Table

end OrdinalMap
