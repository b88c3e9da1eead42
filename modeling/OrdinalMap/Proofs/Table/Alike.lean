import OrdinalMap.Proofs.Table.Sound
import OrdinalMap.Table.Copy
import OrdinalMap.Table.Text

/-! # Tables that differ in vacant slots only

Tables are alike if they have the same occupancy and size, and the same slot for
each ordinal with an entry. The other slots may still hold values of entries that
are gone. Nothing looks at them: what is read from alike tables is the same, on
every domain and whether or not the tables are sound.
-/

namespace OrdinalMap

set_option autoImplicit false

variable {κ ν : Type} {D : Domain κ} {t u t' u' : Table D ν} {i : Nat} {a : Access} {d : Direction}

namespace Table

structure Alike (t u : Table D ν) : Prop where
  occupancy : u.occupancy = t.occupancy
  size : u.size = t.size
  slotAt : ∀ i, t.holds i = true → u.slotAt i = t.slotAt i

theorem Alike.refl (t : Table D ν) : t.Alike t := ⟨rfl, rfl, fun _ _ => rfl⟩

theorem Alike.holds (h : t.Alike u) (i : Nat) : u.holds i = t.holds i := by
  rw [Table.holds, h.occupancy]
  rfl

/-- Sound tables with the same entries are alike. -/
theorem Alike.of_live (ht : t.Sound) (hu : u.Sound) (h : u.live = t.live) : t.Alike u := by
  have hOccupancy : u.occupancy = t.occupancy := by
    apply hu.trimmed.eq_of_contains ht.trimmed
    intro i
    change u.holds i = t.holds i
    rw [← hu.isSome_live, h, ht.isSome_live]
  refine ⟨hOccupancy, ?_, ?_⟩
  · rw [hu.size_eq, ht.size_eq, hOccupancy]
  · intro i hi
    obtain ⟨_, v, _, hv⟩ := ht.exists_live hi
    rw [ht.shows.slotAt hv, hu.shows.slotAt (h ▸ hv)]

theorem Alike.valueAt (h : t.Alike u) (hi : t.holds i = true) : u.valueAt i = t.valueAt i := by
  rw [Table.valueAt, h.slotAt i hi]
  rfl

theorem Alike.contains (h : t.Alike u) (k : κ) : u.contains k = t.contains k := h.holds (D.ordinal k)

theorem Alike.get (h : t.Alike u) (k : κ) : u.get? k = t.get? k := by
  rw [Table.get?, h.contains, Table.get?]
  split
  · rename_i hk
    rw [h.valueAt hk]
  · rfl

theorem Alike.absent (h : t.Alike u) (P : Policy) (site : String) (k : κ) : u.absent P site k = t.absent P site k := by
  rw [Table.absent, h.size]
  rfl

theorem Alike.require (h : t.Alike u) (P : Policy) (site : String) (k : κ) :
    u.require P site k = t.require P site k := by
  rw [Table.require, h.contains, h.absent, Table.require]
  split
  · rename_i hk
    exact h.valueAt hk
  · rfl

/-! ## Positions and walks -/

theorem Alike.motion (h : t.Alike u) (a : Access) : u.motion a = t.motion a := by
  rw [Table.motion, h.occupancy]
  rfl

theorem Alike.positionAt (h : t.Alike u) (a : Access) (d : Direction) (i : Nat) :
    u.positionAt a d i = t.positionAt a d i := by
  rw [Table.positionAt, h.motion]
  rfl

theorem Alike.positionFrom (h : t.Alike u) (a : Access) (i : Nat) : u.positionFrom a i = t.positionFrom a i := by
  rw [Table.positionFrom, h.occupancy, h.motion]
  rfl

theorem Alike.find (h : t.Alike u) (a : Access) (k : κ) : u.find a k = t.find a k := by
  rw [Table.find, h.holds, h.positionAt]
  rfl

theorem Alike.entryAt (h : t.Alike u) (a : Access) (i : Nat) : u.entryAt a i = t.entryAt a i := by
  rw [Table.entryAt, h.holds, Table.entryAt]
  cases hi : t.holds i with
  | true => rw [h.valueAt hi]
  | false => rfl

theorem Alike.entry (h : t.Alike u) (p : Position a d) : u.entry p = t.entry p := by
  rw [Table.entry, h.entryAt]
  rfl

theorem Alike.ofTable (h : t.Alike u) (a : Access) : Walk.ofTable a u = Walk.ofTable a t := by
  have hFirst : u.first a = t.first a := h.positionFrom a 0
  have hPastLast : u.pastLast a = t.pastLast a := h.positionAt a .forward D.count
  rw [Walk.ofTable, hFirst, hPastLast, h.size]
  rfl

theorem Alike.ends (h : t.Alike u) (a : Access) : (Walk.ends u : TwoEnded (Walk a) _) = Walk.ends t := by
  have hReadFront : (Walk.readFront u : EStateM Fault (Walk a) _) = Walk.readFront t := by
    funext w
    rw [Walk.readFront, h.entry]
    rfl
  have hReadBack : (Walk.readBack u : EStateM Fault (Walk a) _) = Walk.readBack t := by
    funext w
    rw [Walk.readBack, h.entry]
    rfl
  have hMoveFront : (Walk.moveFront u : EStateM Fault (Walk a) _) = Walk.moveFront t := by
    funext w
    rw [Walk.moveFront, h.motion]
    rfl
  have hMoveBack : (Walk.moveBack u : EStateM Fault (Walk a) _) = Walk.moveBack t := by
    funext w
    rw [Walk.moveBack, h.motion]
    rfl
  rw [Walk.ends, Walk.next, Walk.nextBack, hReadFront, hReadBack, hMoveFront, hMoveBack]
  rfl

/-! ## Whole tables -/

theorem Alike.entries (h : t.Alike u) : u.entries = t.entries := by
  rw [Table.entries, h.ofTable, h.ends]
  rfl

theorem Alike.text [Textual κ] [Textual ν] (h : t.Alike u) : u.text = t.text := by
  rw [Table.text, h.entries]
  rfl

theorem Alike.recordEntries [Recordable ν] (h : t.Alike u) {is : List Nat} (his : ∀ i ∈ is, t.holds i = true) :
    u.recordEntries is = t.recordEntries is := by
  induction is with
  | nil => rfl
  | cons i is ih =>
    rw [Table.recordEntries, h.valueAt (his i List.mem_cons_self), ih fun j hj => his j (List.mem_cons_of_mem i hj)]
    rfl

theorem Alike.record [Recordable ν] (h : t.Alike u) : u.record = t.record := by
  rw [Table.record, h.occupancy, h.size, h.recordEntries fun i hi => Bitmap.mem_toList.mp hi]
  rfl

theorem Alike.agree [BEq ν] (h : t.Alike u) (h' : t'.Alike u') {is : List Nat}
    (his : ∀ i ∈ is, t.holds i = true ∧ t'.holds i = true) : u.agree u' is = t.agree t' is := by
  induction is with
  | nil => rfl
  | cons i is ih =>
    obtain ⟨hi, hi'⟩ := his i List.mem_cons_self
    rw [Table.agree, h.valueAt hi, h'.valueAt hi', ih fun j hj => his j (List.mem_cons_of_mem i hj)]
    rfl

theorem Alike.equal [BEq ν] (h : t.Alike u) (h' : t'.Alike u') : u.equal u' = t.equal t' := by
  rw [Table.equal, h.occupancy, h'.occupancy, Table.equal]
  split
  · rename_i hOccupancy
    apply h.agree h'
    intro i hi
    have hHolds : t.holds i = true := Bitmap.mem_toList.mp hi
    exact ⟨hHolds, by rwa [Table.holds, ← hOccupancy]⟩
  · rfl

theorem Alike.constructFrom {σ : Type} (h : t.Alike u) (copy : Copier σ ν) {is : List Nat}
    (his : ∀ i ∈ is, t.holds i = true) : Table.constructFrom copy u is = Table.constructFrom copy t is := by
  induction is with
  | nil => rfl
  | cons i is ih =>
    funext s
    rw [Table.constructFrom, h.valueAt (his i List.mem_cons_self), ih fun j hj => his j (List.mem_cons_of_mem i hj)]
    rfl

theorem Alike.constructCopies {σ : Type} (h : t.Alike u) (copy : Copier σ ν) (s : σ) :
    Table.constructCopies copy s u = Table.constructCopies copy s t := by
  rw [Table.constructCopies, h.occupancy, h.constructFrom copy fun i hi => Bitmap.mem_toList.mp hi]
  rfl

theorem Alike.cloneWith {σ : Type} (h : t.Alike u) (copy : Copier σ ν) (s : σ) :
    u.cloneWith copy s = t.cloneWith copy s := by
  rw [Table.cloneWith, h.constructCopies]
  rfl

end Table

end OrdinalMap
