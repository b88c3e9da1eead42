import OrdinalMap.Proofs.Table.Equality
import OrdinalMap.Proofs.Table.Loan
import OrdinalMap.Proofs.Table.Tour
import OrdinalMap.Operation

/-! # Operations that read a sound table

Every slot that is read belongs to an entry, and so holds a value. What faults
there are come from the domain or from the functions of the caller.
-/

namespace OrdinalMap

set_option autoImplicit false

variable {κ ν : Type} {D : Domain κ} {t u : Table D ν}

namespace Table

theorem settles_valueAt (h : t.Sound) {i : Nat} (hi : t.holds i = true) :
    Settles (t.valueAt i) fun _ => True := by
  obtain ⟨_, v, _, hv⟩ := h.exists_live hi
  exact settles_of_eq_ok (h.shows.valueAt hv) trivial

theorem settles_get? (h : t.Sound) (k : κ) : Settles (t.get? k) fun _ => True := by
  rw [get?]
  split
  · rename_i hk
    exact (settles_valueAt h hk).map fun _ _ => trivial
  · exact trivial

theorem settles_require (h : t.Sound) (P : Policy) (site : String) (k : κ) :
    Settles (t.require P site k) fun _ => True := by
  rw [require]
  split
  · rename_i hk
    exact settles_valueAt h hk
  · intro b hBreach
    cases hBreach

theorem settles_equal [BEq ν] (ht : t.Sound) (hu : u.Sound) : Settles (equal t u) fun _ => True := by
  obtain ⟨b, hEqual, -⟩ := ht.shows.equal hu.shows
  exact settles_of_eq_ok hEqual trivial

theorem settles_recordEntries [Recordable ν] (hRecord : ∀ v : ν, Settles (Recordable.record v) fun _ => True)
    (h : t.Sound) {is : List Nat} (his : ∀ i ∈ is, t.holds i = true) :
    Settles (t.recordEntries is) fun _ => True := by
  induction is with
  | nil => exact trivial
  | cons i is ih =>
    refine (settles_valueAt h (his i List.mem_cons_self)).bind fun v _ => (hRecord v).bind fun r _ => ?_
    exact (ih fun j hj => his j (List.mem_cons_of_mem i hj)).bind fun _ _ => trivial

theorem settles_record [Recordable ν] (hRecord : ∀ v : ν, Settles (Recordable.record v) fun _ => True)
    (h : t.Sound) : Settles t.record fun _ => True := by
  have hEntries : Settles (t.recordEntries t.occupancy.toList) fun _ => True :=
    settles_recordEntries hRecord h fun i hi => Bitmap.mem_toList.mp hi
  exact hEntries.bind fun _ _ => trivial

theorem settles_entryTexts [Textual κ] [Textual ν] (hKey : ∀ k : κ, Settles (Textual.text k) fun _ => True)
    (hValue : ∀ v : ν, Settles (Textual.text v) fun _ => True) (es : List (Entry κ ν)) :
    Settles (entryTexts es) fun _ => True := by
  induction es with
  | nil => exact trivial
  | cons e es ih =>
    exact (hKey e.key).bind fun _ _ => (hValue e.value).bind fun _ _ => ih.bind fun _ _ => trivial

end Table

namespace Walk

variable {a : Access} {m : Nat → Option ν}

theorem pull_keeps (h : t.Shows m) (x : Nat) (e : End) (w : Walk a)
    (hw : ∃ js, w.Spans D (fun i => (m i).isSome) js x) :
    Ends ((ends t).pull e) w (fun _ u => ∃ js, u.Spans D (fun i => (m i).isSome) js x)
      (fun f u => f.Regular ∧ ∃ js, u.Spans D (fun i => (m i).isSome) js x) := by
  obtain ⟨js, hw⟩ := hw
  apply (pull_ends h hw e).mono
  · rintro r u (⟨-, -, rfl⟩ | ⟨_, rest, _, _, _, _, hu⟩)
    · exact ⟨js, hw⟩
    · exact ⟨rest, hu⟩
  · rintro f u ⟨⟨i, _, hKey⟩ | ⟨rfl, _⟩, rest, _, hu⟩
    · exact ⟨(Domain.keyAt_error hKey).regular, rest, hu⟩
    · exact ⟨nofun, rest, hu⟩

end Walk

namespace Table

theorem settles_entries (h : t.Sound) : Settles t.entries fun _ => True := by
  obtain ⟨w, hOf, hw⟩ := Walk.ofTable_spans (a := .readOnly) h.shows
  have hDrain := TwoEnded.drain_ends (Walk.pull_keeps h.shows _) .front w ⟨_, hw⟩
  rw [entries, hOf]
  dsimp only [bind, Except.bind]
  obtain ⟨es, _, hRun, -⟩ | ⟨f, _, hRun, hf, -⟩ := hDrain.ran
  · rw [hRun]
    exact trivial
  · rw [hRun]
    exact hf

theorem settles_text [Textual κ] [Textual ν] (hKey : ∀ k : κ, Settles (Textual.text k) fun _ => True)
    (hValue : ∀ v : ν, Settles (Textual.text v) fun _ => True) (h : t.Sound) :
    Settles t.text fun _ => True := by
  refine (settles_entries h).bind fun es _ => ?_
  exact (settles_entryTexts hKey hValue es).bind fun _ _ => trivial

end Table

namespace Operation

theorem settles_recordWith (h : t.Sound) (tokens : ν → Except String (List Token)) :
    Settles (recordWith tokens t) fun _ => True := by
  let _ : Recordable ν := ⟨fun v => raising (tokens v)⟩
  exact Table.settles_record (fun v => settles_raising (tokens v)) h

theorem settles_textWith (h : t.Sound) (key : κ → Except String Text) (value : ν → Except String Text) :
    Settles (textWith key value t) fun _ => True := by
  let _ : Textual κ := ⟨fun k => raising (key k)⟩
  let _ : Textual ν := ⟨fun v => raising (value v)⟩
  exact Table.settles_text (fun k => settles_raising (key k)) (fun v => settles_raising (value v)) h

theorem settles_walkOver (h : t.Sound) (a : Access) (es : List End) :
    Settles (walkOver a es t) fun rs => ∀ f, .error f ∈ rs → f.Regular := by
  obtain ⟨w, hOf, hw⟩ := Walk.ofTable_spans (a := a) h.shows
  rw [walkOver, hOf]
  exact (TwoEnded.run_keeps (Walk.pull_keeps h.shows _) es w ⟨_, hw⟩).2

end Operation

end OrdinalMap
