import OrdinalMap.Proofs.Table.Walk
import OrdinalMap.Table.Loan

/-! # Loans never meet

A walk lends each entry at most once, in whatever order the two ends are pulled
and whatever faults a domain causes on the way. Writes through the loans
therefore reach the entries that were lent, and no others.
-/

namespace OrdinalMap

set_option autoImplicit false

/-- What the holder of loan `n` sees after a call, having seen `v` before. -/
def LoanCall.seenBy {ν : Type} (n : Nat) (v : ν) : LoanCall ν → ν
  | .pull _ => v
  | .write loan w => if loan = n then w else v

namespace Lending

variable {κ ν : Type} {D : Domain κ} {t : Table D ν} {s : Lending D ν} {js : List Nat} {x : Nat}

def lent (s : Lending D ν) : List Nat := s.loans.map Loan.ordinal

/-- What calls keep of the table `t` that was borrowed: its occupancy and its
size, each entry that is not lent, and for each loan the value of its holder.
What is lent and the ordinals `js` that the walk still has before it are apart. -/
structure Keeps (t : Table D ν) (js : List Nat) (x : Nat) (s : Lending D ν) : Prop where
  sound : s.table.Sound
  occupancy : s.table.occupancy = t.occupancy
  size : s.table.size = t.size
  spans : s.walk.Spans D t.holds js x
  apart : (s.lent ++ js).Nodup
  lent_live : ∀ l ∈ s.loans, s.table.live l.ordinal = some l.value
  others : ∀ i, i ∉ s.lent → s.table.live i = t.live i

theorem Keeps.isSome_live (h : s.Keeps t js x) : (fun i => (s.table.live i).isSome) = t.holds := by
  funext i
  rw [h.sound.isSome_live, Table.holds, h.occupancy]
  rfl

theorem Keeps.start (h : t.Sound) {w : Walk .writable} (hw : w.Spans D t.holds js x) :
    Keeps t js x { table := t, walk := w, loans := [] } where
  sound := h
  occupancy := rfl
  size := rfl
  spans := hw
  apart := hw.nodup
  lent_live := nofun
  others := fun _ _ => rfl

theorem Keeps.walk (h : s.Keeps t js x) {w : Walk .writable} {rest : List Nat}
    (hw : w.Spans D t.holds rest x) (hRest : rest.Sublist js) : Keeps t rest x { s with walk := w } where
  sound := h.sound
  occupancy := h.occupancy
  size := h.size
  spans := hw
  apart := h.apart.sublist (hRest.append_left _)
  lent_live := h.lent_live
  others := h.others

theorem Keeps.lend (h : s.Keeps t js x) {w : Walk .writable} {rest : List Nat} {e : End} {i : Nat} {v : ν}
    (hw : w.Spans D t.holds rest x) (hTakes : e.Takes js i rest) (hv : s.table.live i = some v) :
    Keeps t rest x { s with walk := w, loans := s.loans ++ [⟨i, v⟩] } := by
  have hLent : lent { s with walk := w, loans := s.loans ++ [⟨i, v⟩] } = s.lent ++ [i] := List.map_append
  refine ⟨h.sound, h.occupancy, h.size, hw, ?_, ?_, ?_⟩
  · rw [hLent, List.append_assoc]
    exact ((hTakes.perm.append_left s.lent).nodup_iff).mp h.apart
  · intro l hl
    obtain hl | hl := List.mem_append.mp hl
    · exact h.lent_live l hl
    · rw [List.mem_singleton.mp hl]
      exact hv
  · intro j hj
    rw [hLent] at hj
    exact h.others j fun hMem => hj (List.mem_append_left [i] hMem)

theorem Keeps.pull (h : s.Keeps t js x) (e : End) :
    ∃ rest, (Lending.pull e s).2.Keeps t rest x ∧ ∀ b, (Lending.pull e s).1 ≠ .error (.breach b) := by
  unfold Lending.pull
  obtain ⟨r, w, hRun, hPull⟩ | ⟨f, w, hRun, hFault, rest, hRest, hw⟩ :=
    (Walk.pull_ends h.sound.shows (h.isSome_live ▸ h.spans) e).ran
  · rw [hRun]
    obtain ⟨rfl, rfl, rfl⟩ | ⟨i, rest, found, hTakes, rfl, ⟨hi, -, hv⟩, hw⟩ := hPull
    · exact ⟨[], h, nofun⟩
    · rw [h.isSome_live] at hw
      subst hi
      exact ⟨rest, h.lend hw hTakes hv, nofun⟩
  · rw [hRun]
    rw [h.isSome_live] at hw
    have hSublist : rest.Sublist js := by
      obtain rfl | ⟨i, hTakes⟩ := hRest
      · exact .refl rest
      · exact hTakes.sublist
    refine ⟨rest, h.walk hw hSublist, ?_⟩
    rintro b ⟨⟩
    obtain ⟨i, _, hKey⟩ | ⟨hEq, _⟩ := hFault
    · exact (Domain.keyAt_error hKey).ne_breach b rfl
    · cases hEq

theorem lent_set {loans : List (Loan ν)} {n : Nat} {l : Loan ν} (hl : loans[n]? = some l) (v : ν) :
    (loans.set n { l with value := v }).map Loan.ordinal = loans.map Loan.ordinal := by
  obtain ⟨hn, hGet⟩ := List.getElem?_eq_some_iff.mp hl
  have hLength : n < (loans.map Loan.ordinal).length := by rwa [List.length_map]
  calc
    (loans.set n { l with value := v }).map Loan.ordinal = (loans.map Loan.ordinal).set n l.ordinal :=
      List.map_set
    _ = (loans.map Loan.ordinal).set n (loans.map Loan.ordinal)[n] := by rw [List.getElem_map, hGet]
    _ = loans.map Loan.ordinal := List.set_getElem_self hLength

theorem Keeps.set_live (h : s.Keeps t js x) {n : Nat} {l : Loan ν} (hl : s.loans[n]? = some l) (v : ν) :
    ∀ l' ∈ s.loans.set n { l with value := v },
      Function.update s.table.live l.ordinal (some v) l'.ordinal = some l'.value := by
  intro l' hl'
  obtain ⟨k, hk⟩ := List.getElem?_of_mem hl'
  obtain rfl | hkn := eq_or_ne k n
  · obtain ⟨hLength, -⟩ := List.getElem?_eq_some_iff.mp hl
    rw [List.getElem?_set_self hLength, Option.some.injEq] at hk
    subst hk
    exact Function.update_self ..
  · rw [List.getElem?_set_ne (Ne.symm hkn)] at hk
    -- two loans of one ordinal would be one loan, as nothing is lent twice
    have hne : l'.ordinal ≠ l.ordinal := by
      intro hEq
      have hNodup : s.lent.Nodup := h.apart.of_append_left
      obtain ⟨hLength, -⟩ := List.getElem?_eq_some_iff.mp hk
      apply hkn
      apply (List.getElem?_inj _ hNodup).mp
      · rw [lent, List.getElem?_map, List.getElem?_map, hk, hl, Option.map_some, Option.map_some, hEq]
      · rwa [lent, List.length_map]
    rw [Function.update_of_ne hne]
    exact h.lent_live l' (List.mem_of_getElem? hk)

theorem Keeps.write (h : s.Keeps t js x) (n : Nat) (v : ν) :
    (Lending.write n v s).2.Keeps t js x ∧ (Lending.write n v s).1 = .ok none := by
  unfold Lending.write
  cases hl : s.loans[n]? with
  | none => exact ⟨h, rfl⟩
  | some l =>
    have hMem := List.mem_of_getElem? hl
    have hModify := (Table.modifyAt_ends h.sound.shows (h.lent_live l hMem) fun _ => v).and
      (Table.modifyAt_frame s.table l.ordinal fun _ => v)
    dsimp only
    obtain ⟨_, u, hRun, ⟨-, hShows⟩, hOccupancy, hSize⟩ | ⟨_, _, _, hFalse, _⟩ := hModify.ran
    · rw [hRun]
      refine ⟨⟨hShows.sound, hOccupancy.trans h.occupancy, hSize.trans h.size, h.spans, ?_, ?_, ?_⟩, rfl⟩
      · rw [lent, lent_set hl]
        exact h.apart
      · rw [hShows.live_eq]
        exact h.set_live hl v
      · intro i hi
        rw [lent, lent_set hl] at hi
        have hne : i ≠ l.ordinal := by
          rintro rfl
          exact hi (List.mem_map_of_mem hMem)
        rw [hShows.live_eq, Function.update_of_ne hne]
        exact h.others i hi
    · cases hFalse

theorem Keeps.perform (h : s.Keeps t js x) (c : LoanCall ν) :
    ∃ rest, (Lending.perform c s).2.Keeps t rest x ∧ ∀ b, (Lending.perform c s).1 ≠ .error (.breach b) := by
  cases c with
  | pull e => exact h.pull e
  | write n v =>
    obtain ⟨hKeeps, hOk⟩ := h.write n v
    refine ⟨js, hKeeps, fun b hb => ?_⟩
    cases hOk.symm.trans hb

theorem lent_perform (c : LoanCall ν) (s : Lending D ν) :
    (Lending.perform c s).2.lent = s.lent ++ (yielded [(Lending.perform c s).1]).map Entry.ordinal := by
  cases c with
  | pull e =>
    rw [Lending.perform, Lending.pull]
    split
    · exact List.map_append
    · exact (List.append_nil _).symm
    · exact (List.append_nil _).symm
  | write n v =>
    rw [Lending.perform, Lending.write]
    split
    · exact (List.append_nil _).symm
    · rename_i l hl
      split
      · exact (lent_set hl v).trans (List.append_nil _).symm
      · exact (List.append_nil _).symm

theorem lent_run (cs : List (LoanCall ν)) (s : Lending D ν) :
    (Lending.run cs s).2.lent = s.lent ++ (yielded (Lending.run cs s).1).map Entry.ordinal := by
  induction cs generalizing s with
  | nil => exact (List.append_nil _).symm
  | cons c cs ih =>
    rw [Lending.run, yielded_cons, List.map_append, ← List.append_assoc, ← lent_perform]
    exact ih _

theorem Keeps.run (h : s.Keeps t js x) (cs : List (LoanCall ν)) :
    ∃ rest, (Lending.run cs s).2.Keeps t rest x ∧ ∀ r ∈ (Lending.run cs s).1, ∀ b, r ≠ .error (.breach b) := by
  induction cs generalizing s js with
  | nil => exact ⟨js, h, nofun⟩
  | cons c cs ih =>
    obtain ⟨rest, hNext, hFault⟩ := h.perform c
    obtain ⟨last, hLast, hFaults⟩ := ih hNext
    refine ⟨last, hLast, ?_⟩
    intro r hr
    obtain rfl | hr := List.mem_cons.mp hr
    · exact hFault
    · exact hFaults r hr

theorem Keeps.loan_perform (h : s.Keeps t js x) {n : Nat} {l : Loan ν} (hl : s.loans[n]? = some l)
    (c : LoanCall ν) :
    (Lending.perform c s).2.loans[n]? = some { l with value := c.seenBy n l.value } := by
  obtain ⟨hn, hGet⟩ := List.getElem?_eq_some_iff.mp hl
  cases c with
  | pull e =>
    rw [Lending.perform, Lending.pull]
    split
    · exact (List.getElem?_append_left hn).trans hl
    · exact hl
    · exact hl
  | write loan v =>
    have hOk := (h.write loan v).2
    revert hOk
    rw [Lending.perform, Lending.write, LoanCall.seenBy]
    cases hWritten : s.loans[loan]? with
    | none =>
      have hne : loan ≠ n := by
        rintro rfl
        cases hl.symm.trans hWritten
      rw [if_neg hne]
      exact fun _ => hl
    | some written =>
      dsimp only
      cases Table.modifyAt written.ordinal (fun _ => v) s.table with
      | error f u =>
        intro hError
        cases hError
      | ok _ u =>
        intro _
        obtain rfl | hEq := eq_or_ne loan n
        · cases hl.symm.trans hWritten
          rw [if_pos rfl]
          exact List.getElem?_set_self hn
        · rw [if_neg hEq]
          exact (List.getElem?_set_ne hEq).trans hl

theorem Keeps.loan_run (h : s.Keeps t js x) {n : Nat} {l : Loan ν} (hl : s.loans[n]? = some l)
    (cs : List (LoanCall ν)) :
    (Lending.run cs s).2.loans[n]? = some { l with value := cs.foldl (LoanCall.seenBy n) l.value } := by
  induction cs generalizing s js l with
  | nil => exact hl
  | cons c cs ih =>
    obtain ⟨rest, hNext, -⟩ := h.perform c
    exact ih hNext (h.loan_perform hl c)

theorem run_append (cs cs' : List (LoanCall ν)) (s : Lending D ν) :
    (Lending.run (cs ++ cs') s).2 = (Lending.run cs' (Lending.run cs s).2).2 := by
  induction cs generalizing s with
  | nil => rfl
  | cons c cs ih => exact ih (Lending.perform c s).2

theorem Keeps.found (h : s.Keeps t js x) {e : End} {found : Entry κ ν}
    (hPull : (Lending.pull e s).1 = .ok (some found)) :
    t.live found.ordinal = some found.value ∧
      (Lending.pull e s).2.loans = s.loans ++ [⟨found.ordinal, found.value⟩] := by
  unfold Lending.pull at hPull ⊢
  obtain ⟨r, w, hRun, hEnds⟩ | ⟨f, w, hRun, -⟩ :=
    (Walk.pull_ends h.sound.shows (h.isSome_live ▸ h.spans) e).ran
  · rw [hRun] at hPull ⊢
    obtain ⟨rfl, rfl, rfl⟩ | ⟨i, rest, found', hTakes, rfl, ⟨hi, -, hv⟩, -⟩ := hEnds
    · exact absurd hPull (by simp)
    · obtain rfl : found = found' := by simpa using hPull.symm
      constructor
      · subst hi
        have hMem : found.ordinal ∈ js := hTakes.perm.mem_iff.mpr List.mem_cons_self
        rw [← h.others found.ordinal fun hLent => (List.disjoint_of_nodup_append h.apart) hLent hMem]
        exact hv
      · rfl
  · rw [hRun] at hPull
    cases hPull

theorem Keeps.run_found (h : s.Keeps t js x) (cs : List (LoanCall ν)) :
    ∀ e ∈ yielded (Lending.run cs s).1, t.live e.ordinal = some e.value := by
  induction cs generalizing s js with
  | nil => exact nofun
  | cons c cs ih =>
    obtain ⟨rest, hNext, -⟩ := h.perform c
    intro e he
    rw [Lending.run, yielded_cons] at he
    obtain he | he := List.mem_append.mp he
    · have hEq := List.mem_singleton.mp (mem_yielded.mp he)
      cases c with
      | pull _ => exact (h.found hEq.symm).1
      | write n v => cases (h.write n v).2.symm.trans hEq.symm
    · exact ih hNext e he

end Lending

end OrdinalMap
