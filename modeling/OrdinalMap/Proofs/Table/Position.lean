import OrdinalMap.Proofs.Selection
import OrdinalMap.Proofs.Table.Effects
import OrdinalMap.Table.Position

/-! # Positions in sound tables

Where the positions of a table stand and how they move, said by which ordinals
have entries, and what is found there.
-/

namespace OrdinalMap

set_option autoImplicit false

def Domain.position {κ : Type} (D : Domain κ) (a : Access) (i : Nat) : Position a .forward :=
  ⟨{ index := i, stop := D.count }⟩

namespace Table

variable {κ ν : Type} {D : Domain κ} {a : Access} {d : Direction} {t : Table D ν} {m : Nat → Option ν}

/-- The first ordinal from `start` on that has an entry, or the number of keys. -/
def liveFrom (t : Table D ν) (start : Nat) : Nat :=
  if start < D.count then t.occupancy.selection.next start D.count else D.count

theorem Shows.contains_occupancy (h : t.Shows m) : t.occupancy.contains = fun i => (m i).isSome :=
  funext h.holds

theorem Shows.liveFrom (h : t.Shows m) {start : Nat} (hStart : start ≤ D.count) :
    IsNext (fun i => (m i).isSome) start D.count (t.liveFrom start) := by
  rw [← h.contains_occupancy, Table.liveFrom]
  split
  · exact t.occupancy.selection_next hStart
  · rename_i hlt
    exact ⟨hStart, le_rfl, fun i hi hc => absurd (hi.trans_lt hc) hlt, fun hc => absurd hc (lt_irrefl _)⟩

theorem Shows.prev (h : t.Shows m) (i : Nat) : IsPrev (fun j => (m j).isSome) i (t.occupancy.prev? i) := by
  rw [← h.contains_occupancy]
  exact t.occupancy.selection_prev i

theorem positionAt_forward (t : Table D ν) {i : Nat} (h : i ≤ D.count) :
    t.positionAt a .forward i = .ok (D.position a i) := by
  simp [positionAt, Skip.ofIndex, h, Cursor.ofPosition, bind, Except.bind, Domain.position]

theorem positionAt_of_lt (t : Table D ν) {i : Nat} (h : D.count < i) :
    t.positionAt a d i = .error (.pastEnd i D.count) := by
  simp [positionAt, Skip.ofIndex, Nat.not_le.mpr h, bind, Except.bind]

theorem positionFrom_eq (t : Table D ν) (i : Nat) :
    t.positionFrom a i = .ok (D.position a (t.liveFrom i)) := by
  have hle : t.liveFrom i ≤ D.count := by
    rw [Table.liveFrom]
    split
    · rename_i hi
      exact (t.occupancy.selection_next hi.le).le_stop
    · exact le_rfl
  rw [Table.liveFrom] at hle
  simp [positionFrom, Skip.firstFrom, Skip.ofIndex, Table.liveFrom, hle, Cursor.ofPosition, bind, Except.bind,
    Domain.position]

theorem first_eq (t : Table D ν) : t.first a = .ok (D.position a (t.liveFrom 0)) :=
  t.positionFrom_eq 0

theorem pastLast_eq (t : Table D ν) : t.pastLast a = .ok (D.position a D.count) :=
  t.positionAt_forward le_rfl

theorem increment_eq (t : Table D ν) {p : Position a .forward} (hStop : p.position.stop = D.count)
    (h : p.position.index < D.count) :
    p.increment (t.motion a) = .ok ⟨{ p.position with index := t.liveFrom (p.position.index + 1) }⟩ := by
  have hCount := D.count_lt
  have hNext : nextIndex p.position.index = p.position.index + 1 := by
    apply nextIndex_of_lt
    rw [beforeBegin]
    omega
  simp only [Cursor.increment, motion, Skip.motion, Skip.advance, hNext, hStop, Table.liveFrom]

theorem decrement_eq_error (t : Table D ν) {p : Position a .forward} (h : p.position.index = beforeBegin) :
    p.decrement (t.motion a) = .error .recededPastBegin := by
  simp [Cursor.decrement, motion, Skip.motion, Skip.recede, h, Except.map]

theorem decrement_eq (t : Table D ν) {p : Position a .forward} (hStop : p.position.index ≤ p.position.stop)
    (h : p.position.index ≠ beforeBegin) {k : Nat} (hk : t.occupancy.prev? p.position.index = some k) :
    p.decrement (t.motion a) = .ok ⟨{ p.position with index := k }⟩ := by
  simp [Cursor.decrement, motion, Skip.motion, Skip.recede, Bitmap.selection, h, hk, min_eq_left hStop, Except.map]

theorem entryAt_eq_error (h : t.Shows m) {i : Nat} (hi : m i = none) :
    t.entryAt a i = .error (.vacantPosition i) := by
  simp only [entryAt, h.holds_of_none hi]
  split <;> rfl

theorem entryAt_eq (h : t.Shows m) {i : Nat} {v : ν} (hi : m i = some v) :
    t.entryAt a i = (D.keyAt i).map fun key => { ordinal := i, key, value := v } := by
  have hSlot : ¬ (a = .writable ∧ D.slots ≤ i) := fun ⟨_, hle⟩ => absurd (h.lt_slots hi) (Nat.not_lt.mpr hle)
  simp only [entryAt, hSlot, h.holds_of_some hi, h.valueAt hi]
  cases D.keyAt i <;> rfl

theorem entryAt_ordinal (hD : D.Lawful) (h : t.Shows m) {k : κ} {v : ν} (hk : m (D.ordinal k) = some v) :
    t.entryAt a (D.ordinal k) = .ok { ordinal := D.ordinal k, key := k, value := v } := by
  rw [entryAt_eq h hk, Domain.keyAt_eq_ok.mpr (hD.getElem_ordinal k)]
  rfl

end Table

end OrdinalMap
