import OrdinalMap.Proofs.Table.Alike
import OrdinalMap.Proofs.Table.Effects
import OrdinalMap.Proofs.Twin
import OrdinalMap.Operation

/-! # Actions cannot tell alike tables apart

A blind action does the same on alike tables: it ends with the same result or
the same fault, and leaves alike tables. All actions on tables are blind, on every
domain. Those at one ordinal write its slot before they mark it, and unmark it
before they empty it; in between the tables also agree on that slot.
-/

namespace OrdinalMap

set_option autoImplicit false

namespace Table

variable {κ ν α β : Type} {D : Domain κ} {t u : Table D ν} {i : Nat} {x : Action D ν α} {k : α → Action D ν β}
  {R S : Table D ν → Table D ν → Prop}

/-- The action ends in the same way on both tables, which `R` relates after a result. -/
def Likewise (x : Action D ν α) (t u : Table D ν) (R : Table D ν → Table D ν → Prop) : Prop :=
  Twin x x t u (fun a b t' u' => b = a ∧ R t' u') (fun f g t' u' => g = f ∧ t'.Alike u')

def Blind (x : Action D ν α) : Prop := ∀ t u : Table D ν, t.Alike u → Likewise x t u Alike

theorem Likewise.ran (h : Likewise x t u R) :
    (∃ a t' u', x t = .ok a t' ∧ x u = .ok a u' ∧ R t' u') ∨
      ∃ f t' u', x t = .error f t' ∧ x u = .error f u' ∧ t'.Alike u' := by
  obtain ⟨a, t', b, u', ht, hu, rfl, hR⟩ | ⟨f, t', g, u', ht, hu, rfl, hAlike⟩ := Twin.ran h
  · exact .inl ⟨b, t', u', ht, hu, hR⟩
  · exact .inr ⟨g, t', u', ht, hu, hAlike⟩

theorem Likewise.mono (h : Likewise x t u R) (hS : ∀ t' u', R t' u' → S t' u') : Likewise x t u S :=
  Twin.mono h (fun _ _ t' u' hR => ⟨hR.1, hS t' u' hR.2⟩) fun _ _ _ _ hE => hE

theorem Likewise.bind (h : Likewise x t u R) (hk : ∀ a t' u', R t' u' → Likewise (k a) t' u' S) :
    Likewise (x >>= k) t u S := by
  apply Twin.bind h
  · rintro a b t' u' ⟨rfl, hR⟩
    exact hk b t' u' hR
  · exact fun _ _ _ _ hE => hE

theorem Likewise.discard (h : Likewise x t u R) : Likewise (discard x) t u R :=
  h.bind fun _ _ _ hR => ⟨rfl, hR⟩

theorem Likewise.tryFinally {y : Action D ν β} (h : Likewise x t u Alike) (hy : Blind y) :
    Likewise (tryFinally x y) t u Alike := by
  rw [Likewise, Twin, tryFinally_eq, tryFinally_eq]
  obtain ⟨a, t', u', ht, hu, hAlike⟩ | ⟨f, t', u', ht, hu, hAlike⟩ := h.ran
  · obtain ⟨_, _, _, ht', hu', hLast⟩ | ⟨_, _, _, ht', hu', hLast⟩ := (hy t' u' hAlike).ran
    · simpa only [ht, hu, ht', hu', true_and] using hLast
    · simpa only [ht, hu, ht', hu', true_and] using hLast
  · obtain ⟨_, _, _, ht', hu', hLast⟩ | ⟨_, _, _, ht', hu', hLast⟩ := (hy t' u' hAlike).ran
    · simpa only [ht, hu, ht', hu', true_and] using hLast
    · simpa only [ht, hu, ht', hu', true_and] using hLast

theorem likewise_pure (a : α) (h : R t u) : Likewise (pure a) t u R := ⟨rfl, h⟩

theorem likewise_throw (f : Fault) (h : t.Alike u) : Likewise (throw f : Action D ν α) t u R := ⟨rfl, h⟩

theorem likewise_get_bind {f : Table D ν → Action D ν α} (hf : f u = f t) (h : Likewise (f t) t u R) :
    Likewise (get >>= f) t u R := by
  apply twin_get_bind.mpr
  rw [hf]
  exact h

theorem twin_inspect {f : Table D ν → Except Fault α} (h : t.Alike u) (hf : f u = f t) :
    Twin (inspect f) (inspect f) t u (fun a b t' u' => f t = .ok a ∧ b = a ∧ t' = t ∧ u' = u)
      (fun e g t' u' => g = e ∧ t'.Alike u') := by
  cases hRun : f t with
  | ok a => exact twin_of_ok (by rw [inspect, hRun]) (by rw [inspect, hf, hRun]) ⟨rfl, rfl, rfl, rfl⟩
  | error e => exact twin_of_error (by rw [inspect, hRun]) (by rw [inspect, hf, hRun]) ⟨rfl, h⟩

theorem likewise_inspect {f : Table D ν → Except Fault α} (h : t.Alike u) (hf : f u = f t) (hR : R t u) :
    Likewise (inspect f) t u R := by
  apply (twin_inspect h hf).mono
  · rintro a _ _ _ ⟨-, rfl, rfl, rfl⟩
    exact ⟨rfl, hR⟩
  · exact fun _ _ _ _ hE => hE

/-- What was read may be used of the tables that it was read from. -/
theorem likewise_inspect_bind {f : Table D ν → Except Fault α} (h : t.Alike u) (hf : f u = f t)
    (hk : ∀ a, f t = .ok a → Likewise (k a) t u S) : Likewise (inspect f >>= k) t u S := by
  apply (twin_inspect h hf).bind
  · rintro a _ _ _ ⟨hRun, rfl, rfl, rfl⟩
    exact hk _ hRun
  · exact fun _ _ _ _ hE => hE

theorem blind_pure (a : α) : Blind (pure a : Action D ν α) := fun _ _ h => likewise_pure a h

theorem blind_throw (f : Fault) : Blind (throw f : Action D ν α) := fun _ _ h => likewise_throw f h

theorem Blind.bind (h : Blind x) (hk : ∀ a, Blind (k a)) : Blind (x >>= k) :=
  fun t u hAlike => (h t u hAlike).bind fun a t' u' hR => hk a t' u' hR

theorem Blind.discard (h : Blind x) : Blind (discard x) := fun t u hAlike => (h t u hAlike).discard

theorem blind_inspect {f : Table D ν → Except Fault α} (hf : ∀ t u, t.Alike u → f u = f t) :
    Blind (inspect f) :=
  fun t u h => likewise_inspect h (hf t u h) h

/-! ## At one ordinal -/

/-- Alike, and with the same slot for one ordinal more. -/
structure AlikeAt (i : Nat) (t u : Table D ν) : Prop extends t.Alike u where
  slot_eq : u.slotAt i = t.slotAt i

theorem Alike.at (h : t.Alike u) (hi : t.holds i = true) : AlikeAt i t u := ⟨h, h.slotAt i hi⟩

theorem Alike.resize (h : t.Alike u) (size : Nat) : Alike { t with size } { u with size } :=
  ⟨h.occupancy, rfl, h.slotAt⟩

theorem AlikeAt.resize (h : AlikeAt i t u) (size : Nat) : AlikeAt i { t with size } { u with size } :=
  ⟨h.toAlike.resize size, h.slot_eq⟩

theorem slotAt_set (t : Table D ν) (hi : i < D.slots) (s : Slot ν) (j : Nat) :
    slotAt { t with slots := t.slots.set i s } j = if i = j then .ok s else t.slotAt j := by
  obtain hj | hj := Nat.lt_or_ge j D.slots
  · rw [slotAt, slotAt, dif_pos hj, dif_pos hj, Vector.getElem_set]
    split <;> rfl
  · rw [slotAt, slotAt, dif_neg (Nat.not_lt.mpr hj), dif_neg (Nat.not_lt.mpr hj), if_neg (by omega)]

theorem blind_giveUp [Disposal ν] (v : ν) : Blind (giveUp v : Action D ν Unit) := blind_inspect fun _ _ _ => rfl

theorem likewise_setSlot (h : t.Alike u) (i : Nat) (s : Slot ν) : Likewise (setSlot i s) t u (AlikeAt i) := by
  by_cases hi : i < D.slots
  · refine twin_of_ok (dif_pos hi) (dif_pos hi) ⟨rfl, ⟨h.occupancy, h.size, ?_⟩, ?_⟩
    · intro j hj
      rw [slotAt_set, slotAt_set, h.slotAt j hj]
    · rw [slotAt_set, slotAt_set, if_pos rfl, if_pos rfl]
  · exact twin_of_error (dif_neg hi) (dif_neg hi) ⟨rfl, h⟩

theorem likewise_mark (h : AlikeAt i t u) :
    Likewise (mark i) t u fun t' u' => t'.Alike u' ∧ t'.holds i = true := by
  cases hc : t.occupancy.insert i with
  | ok c =>
    have ht : mark i t = .ok () { t with occupancy := c } := by rw [mark, hc]
    have hu : mark i u = .ok () { u with occupancy := c } := by rw [mark, h.occupancy, hc]
    refine twin_of_ok ht hu ⟨rfl, ⟨rfl, h.size, ?_⟩, ?_⟩
    · intro j hj
      rw [Table.holds, Bitmap.contains_insert hc] at hj
      obtain rfl | hij := eq_or_ne j i
      · exact h.slot_eq
      · rw [decide_eq_false hij, Bool.false_or] at hj
        exact h.slotAt j hj
    · rw [Table.holds, Bitmap.contains_insert hc, decide_eq_true rfl, Bool.true_or]
  | error f => exact twin_of_error (by rw [mark, hc]) (by rw [mark, h.occupancy, hc]) ⟨rfl, h.toAlike⟩

theorem likewise_unmark (h : AlikeAt i t u) : Likewise (unmark i) t u (AlikeAt i) := by
  cases hc : t.occupancy.erase i with
  | ok c =>
    have ht : unmark i t = .ok () { t with occupancy := c } := by rw [unmark, hc]
    have hu : unmark i u = .ok () { u with occupancy := c } := by rw [unmark, h.occupancy, hc]
    refine twin_of_ok ht hu ⟨rfl, ⟨rfl, h.size, ?_⟩, h.slot_eq⟩
    intro j hj
    rw [Table.holds, Bitmap.contains_erase hc, Bool.and_eq_true] at hj
    exact h.slotAt j hj.2
  | error f => exact twin_of_error (by rw [unmark, hc]) (by rw [unmark, h.occupancy, hc]) ⟨rfl, h.toAlike⟩

theorem likewise_countUp (h : t.Alike u) (hR : ∀ size, R { t with size } { u with size }) :
    Likewise countUp t u R := by
  have hUp := hR (t.size + 1)
  refine ⟨rfl, ?_⟩
  rwa [h.size]

theorem likewise_countDown (h : t.Alike u) (hR : ∀ size, R { t with size } { u with size }) :
    Likewise countDown t u R := by
  cases hSize : t.size with
  | zero => exact twin_of_error (by rw [countDown, hSize]) (by rw [countDown, h.size, hSize]) ⟨rfl, h⟩
  | succ n => exact twin_of_ok (by rw [countDown, hSize]) (by rw [countDown, h.size, hSize]) ⟨rfl, hR n⟩

theorem likewise_audit (h : t.Alike u) (hR : R t u) : Likewise audit t u R := by
  have hSame : (u.size = u.occupancy.size) = (t.size = t.occupancy.size) := by rw [h.size, h.occupancy]
  by_cases hSize : t.size = t.occupancy.size
  · exact twin_of_ok (if_pos hSize) (if_pos (hSame ▸ hSize)) ⟨rfl, hR⟩
  · exact twin_of_error (if_neg hSize) (if_neg (hSame ▸ hSize)) ⟨rfl, h⟩

/-- Once it is made, an entry is there in both tables. -/
theorem likewise_construct (h : t.Alike u) (i : Nat) (v : ν) :
    Likewise (construct i v) t u fun t' u' => t'.Alike u' ∧ t'.holds i = true := by
  refine likewise_get_bind (by rw [h.holds]) ?_
  cases t.holds i with
  | true => exact likewise_throw _ h
  | false =>
    refine (likewise_setSlot h i (.held v)).bind fun _ t u h => ?_
    -- the slot has been written in both tables, so the entry that the bit makes is the same
    refine (likewise_mark h).bind fun _ t u h => ?_
    refine Likewise.bind (R := fun t' u' => t'.Alike u' ∧ t'.holds i = true) ?_ fun _ t u h => ?_
    · exact likewise_countUp h.1 fun size => ⟨h.1.resize size, h.2⟩
    · exact likewise_audit h.1 h

theorem blind_construct (i : Nat) (v : ν) : Blind (construct i v : Action D ν Unit) :=
  fun _ _ h => (likewise_construct h i v).mono fun _ _ hMade => hMade.1

theorem blind_constructNew [Disposal ν] (i : Nat) (v : ν) : Blind (constructNew i v : Action D ν Bool) := by
  intro t u h
  refine likewise_get_bind (by rw [h.holds]) ?_
  cases t.holds i with
  | true => exact (blind_giveUp v t u h).bind fun _ _ _ h => likewise_pure false h
  | false => exact (blind_construct i v t u h).bind fun _ _ _ h => likewise_pure true h

theorem likewise_disposeAt [Disposal ν] (h : AlikeAt i t u) : Likewise (disposeAt i) t u Alike := by
  refine (likewise_inspect h.toAlike h.slot_eq h.toAlike).bind fun s t u h => ?_
  refine (likewise_setSlot h i .unwritten).bind fun _ t u h => ?_
  exact (likewise_inspect h.toAlike rfl h.toAlike).discard

theorem blind_release [Disposal ν] (i : Nat) : Blind (release i : Action D ν Unit) := by
  intro t u h
  refine likewise_get_bind (by rw [h.holds]) ?_
  cases hi : t.holds i with
  | false => exact likewise_throw _ h
  | true =>
    refine (likewise_unmark (h.at hi)).bind fun _ t u h => ?_
    refine (likewise_countDown h.toAlike h.resize).bind fun _ t u h => ?_
    refine (likewise_audit h.toAlike h).bind fun _ t u h => ?_
    split
    -- the entry is gone, but its slot is still the same in both tables
    · exact likewise_disposeAt h
    · exact likewise_pure () h.toAlike

theorem blind_extract (i : Nat) : Blind (extract i : Action D ν (κ × ν)) := by
  intro t u h
  refine likewise_get_bind (by rw [h.holds]) ?_
  cases hi : t.holds i with
  | false => exact likewise_throw _ h
  | true =>
    refine (likewise_inspect h rfl (h.at hi)).bind fun key t u h => ?_
    refine (likewise_unmark h).bind fun _ t u h => ?_
    refine (likewise_countDown h.toAlike h.resize).bind fun _ t u h => ?_
    refine (likewise_audit h.toAlike h).bind fun _ t u h => ?_
    refine (likewise_inspect h.toAlike h.slot_eq h.toAlike).bind fun s t u h => ?_
    refine (likewise_inspect h rfl h).bind fun taken t u h => ?_
    refine (likewise_setSlot h i taken.2).bind fun _ t u h => ?_
    exact likewise_pure (key, taken.1) h.toAlike

theorem likewise_modifyAt (h : t.Alike u) (hi : t.holds i = true) (f : ν → ν) :
    Likewise (modifyAt i f) t u Alike := by
  refine (likewise_inspect h (h.slotAt i hi) h).bind fun s t u h => ?_
  refine (likewise_inspect h rfl h).bind fun s t u h => ?_
  refine (likewise_setSlot h i s).bind fun _ t u h => ?_
  exact likewise_inspect h.toAlike rfl h.toAlike

theorem likewise_overwrite [Disposal ν] (h : t.Alike u) (hi : t.holds i = true) (v : ν) :
    Likewise (overwrite i v) t u Alike := by
  apply (likewise_disposeAt (h.at hi)).tryFinally
  exact fun t u h => (likewise_setSlot h i (.held v)).mono fun _ _ h => h.toAlike

/-! ## Operations by key -/

theorem blind_place (i : Nat) : Blind (place i : Action D ν _) :=
  blind_inspect fun _ _ h => h.positionAt .writable .forward i

theorem blind_emplace {σ : Type} (k : κ) (make : σ → Except Fault ν × σ) (s : σ) :
    Blind (emplace k make s : Action D ν _) := by
  intro t u h
  refine likewise_get_bind (by rw [h.contains]) ?_
  cases t.contains k with
  | true => exact (blind_place _ t u h).bind fun p _ _ h => likewise_pure (p, false, s) h
  | false =>
    refine (likewise_inspect h rfl h).bind fun v t u h => ?_
    refine (blind_construct _ v t u h).bind fun _ t u h => ?_
    exact (blind_place _ t u h).bind fun p _ _ h => likewise_pure (p, true, (make s).2) h

theorem blind_modifyOrInsert (k : κ) (initial : ν) (f : ν → ν) :
    Blind (modifyOrInsert k initial f : Action D ν _) := by
  intro t u h
  refine likewise_get_bind (by rw [h.contains]) ?_
  cases hk : t.contains k with
  | true => exact likewise_modifyAt h hk f
  | false => exact (likewise_construct h _ initial).bind fun _ t u h => likewise_modifyAt h.1 h.2 f

theorem blind_modify? (k : κ) (f : ν → ν) : Blind (modify? k f : Action D ν _) := by
  intro t u h
  refine likewise_get_bind (by rw [h.contains]) ?_
  cases hk : t.contains k with
  | true => exact (likewise_modifyAt h hk f).bind fun v _ _ h => likewise_pure (some v) h
  | false => exact likewise_pure none h

theorem blind_modifyRequired (P : Policy) (site : String) (k : κ) (f : ν → ν) :
    Blind (modifyRequired P site k f : Action D ν _) := by
  intro t u h
  refine likewise_get_bind (by rw [h.contains, h.absent]) ?_
  cases hk : t.contains k with
  | true => exact likewise_modifyAt h hk f
  | false => exact likewise_throw _ h

theorem blind_takeEntry (k : κ) : Blind (Table.takeEntry? k : Action D ν _) := by
  intro t u h
  refine likewise_get_bind (by rw [h.contains]) ?_
  cases t.contains k with
  | true => exact (blind_extract _ t u h).bind fun p _ _ h => likewise_pure (some p) h
  | false => exact likewise_pure none h

theorem blind_take? (k : κ) : Blind (take? k : Action D ν _) :=
  (blind_takeEntry k).bind fun _ => blind_pure _

section Disposal

variable [Disposal ν]

theorem blind_insert (k : κ) (v : ν) : Blind (insert k v : Action D ν _) :=
  (blind_constructNew _ v).bind fun new => (blind_place _).bind fun p => blind_pure (p, new)

theorem blind_assign (k : κ) (v : ν) : Blind (assign k v : Action D ν _) := by
  have hPlace : ∀ new : Bool, Blind (do return (← place (D.ordinal k), new) : Action D ν _) :=
    fun new => (blind_place _).bind fun p => blind_pure (p, new)
  intro t u h
  refine likewise_get_bind (by rw [h.contains]) ?_
  cases hk : t.contains k with
  | true => exact (likewise_overwrite h hk v).bind fun _ t u h => hPlace false t u h
  | false => exact (blind_construct _ v t u h).bind fun _ t u h => hPlace true t u h

theorem blind_insertMany (pairs : List (κ × ν)) : Blind (insertMany pairs : Action D ν _) := by
  induction pairs with
  | nil => exact blind_pure ()
  | cons p pairs ih => exact (blind_constructNew _ p.2).discard.bind fun _ => ih

theorem blind_erase (k : κ) : Blind (erase k : Action D ν _) := by
  intro t u h
  refine likewise_get_bind (by rw [h.contains]) ?_
  cases t.contains k with
  | true => exact (blind_release _ t u h).bind fun _ _ _ h => likewise_pure 1 h
  | false => exact likewise_pure 0 h

theorem blind_eraseAt (k : κ) : Blind (eraseAt k : Action D ν _) := by
  intro t u h
  refine likewise_get_bind (by rw [h.contains]) ?_
  cases t.contains k with
  | true =>
    refine (blind_release _ t u h).bind fun _ t u h => ?_
    exact likewise_inspect h (h.positionFrom .writable _) h
  | false => exact likewise_throw _ h

theorem blind_releaseFrom (limit start : Nat) : Blind (releaseFrom limit start : Action D ν _) := by
  induction limit generalizing start with
  | zero => exact blind_pure ()
  | succ limit ih =>
    intro t u h
    refine likewise_get_bind (by rw [h.occupancy]) ?_
    cases t.occupancy.next? start with
    | none => exact likewise_pure () h
    | some i => exact (blind_release i t u h).bind fun _ t u h => ih (i + 1) t u h

theorem blind_clear : Blind (clear : Action D ν _) := by
  have hReset : Blind (do
      modify fun t : Table D ν => { t with occupancy := t.occupancy.clear, size := 0 }
      audit : Action D ν Unit) := by
    intro t u h
    have hCleared : Alike { t with occupancy := t.occupancy.clear, size := 0 }
        { u with occupancy := u.occupancy.clear, size := 0 } := by
      refine ⟨by rw [h.occupancy], rfl, fun i hi => ?_⟩
      rw [Table.holds, Bitmap.contains_clear] at hi
      cases hi
    exact likewise_audit hCleared hCleared
  rw [clear]
  split
  · exact (blind_releaseFrom D.capacity 0).bind fun _ => hReset
  · exact hReset

/-! ## Passes over many ordinals -/

theorem blind_eraseSpan (count start : Nat) : Blind (eraseSpan count start : Action D ν _) := by
  induction count generalizing start with
  | zero => exact blind_pure 0
  | succ count ih =>
    intro t u h
    refine likewise_get_bind (by rw [h.holds]) ?_
    cases t.holds start with
    | true =>
      refine (blind_release start t u h).bind fun _ t u h => ?_
      exact (ih (start + 1) t u h).bind fun n _ _ h => likewise_pure (n + 1) h
    | false => exact ih (start + 1) t u h

theorem blind_eraseRange (lower upper : Bound κ) : Blind (eraseRange lower upper : Action D ν _) := by
  refine (blind_inspect fun _ _ _ => rfl).bind fun start => ?_
  refine (blind_inspect fun _ _ _ => rfl).bind fun stop => ?_
  split
  · exact (blind_throw _).bind fun _ => blind_eraseSpan _ _
  · exact (blind_pure ()).bind fun _ => blind_eraseSpan _ _

theorem blind_retainSpan {σ : Type} (keep : Test σ κ ν) (count start : Nat) (s : σ) :
    Blind (retainSpan keep count start s : Action D ν _) := by
  induction count generalizing start s with
  | zero => exact blind_pure s
  | succ count ih =>
    intro t u h
    refine likewise_get_bind (by rw [h.holds]) ?_
    cases hStart : t.holds start with
    | true =>
      refine (likewise_inspect h (h.valueAt hStart) h).bind fun v t u h => ?_
      refine (likewise_inspect h rfl h).bind fun k t u h => ?_
      refine (likewise_setSlot h start _).bind fun _ t u h => ?_
      refine (likewise_inspect h.toAlike rfl h.toAlike).bind fun kept t u h => ?_
      cases kept with
      | true => exact ih (start + 1) _ t u h
      | false => exact (blind_release start t u h).bind fun _ t u h => ih (start + 1) _ t u h
    | false => exact ih (start + 1) s t u h

theorem blind_retain {σ : Type} (keep : Test σ κ ν) (s : σ) : Blind (retain keep s : Action D ν _) :=
  blind_retainSpan keep D.count 0 s

theorem blind_eraseIf {σ : Type} (test : σ → κ → ν → Except Fault Bool × σ) (s : σ) :
    Blind (eraseIf test s : Action D ν _) := by
  intro t u h
  refine likewise_get_bind (by rw [h.size]) ?_
  refine (blind_retain _ s t u h).bind fun s' t' u' h' => ?_
  refine likewise_get_bind (by rw [h'.size]) ?_
  dsimp only
  split
  · exact likewise_throw _ h'
  · exact likewise_pure (t.size - t'.size, s') h'

end Disposal

theorem blind_constructFrom {σ : Type} (copy : Copier σ ν) (source : Table D ν) (is : List Nat) (s : σ) :
    Blind (constructFrom copy source is s) := by
  induction is generalizing s with
  | nil => exact blind_pure s
  | cons i is ih =>
    refine (blind_inspect fun _ _ _ => rfl).bind fun v => ?_
    refine (blind_inspect fun _ _ _ => rfl).bind fun w => ?_
    exact (blind_construct i w).bind fun _ => ih _

theorem blind_cloneFromWith [Disposal ν] {σ : Type} (copy : Copier σ ν) (s : σ) (source : Table D ν) :
    Blind (cloneFromWith copy s source) :=
  blind_clear.bind fun _ => blind_constructFrom copy source _ s

theorem Alike.cloneFromWith [Disposal ν] {σ : Type} (h : t.Alike u) (copy : Copier σ ν) (s : σ) :
    Table.cloneFromWith copy s u = Table.cloneFromWith copy s t := by
  rw [Table.cloneFromWith, h.constructCopies]
  rfl

end Table

theorem KeyOperation.blind_run {κ ν α : Type} {D : Domain κ} [Disposal ν] (op : KeyOperation κ ν α) :
    Table.Blind (op.run : Action D ν α) := by
  cases op with
  | insert k v => exact Table.blind_insert k v
  | assign k v => exact Table.blind_assign k v
  | emplace k make s => exact Table.blind_emplace k (fun s => (raising (make s).1, (make s).2)) s
  | modifyOrInsert k initial f => exact Table.blind_modifyOrInsert k initial f
  | modify? k f => exact Table.blind_modify? k f
  | modifyRequired P site k f => exact Table.blind_modifyRequired P site k f
  | insertMany pairs => exact Table.blind_insertMany pairs
  | erase k => exact Table.blind_erase k
  | eraseAt k => exact Table.blind_eraseAt k
  | take? k => exact Table.blind_take? k
  | takePair? k => exact Table.blind_takeEntry k
  | clear => exact Table.blind_clear

end OrdinalMap
