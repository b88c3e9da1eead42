import OrdinalMap.Proofs.Table.Keyed
import OrdinalMap.Proofs.Table.Walk

/-! # Releasing entries one after the other

Three loops erase entries one by one: one tests each ordinal of a span, one goes on from
where the occupancy finds the next entry, and one goes on at the key under the cursor
that erasing a key gives. Each of them does what releasing the live ordinals on its way
does, each of them once and in ascending order.
-/

namespace OrdinalMap

set_option autoImplicit false

variable {κ ν α β : Type} {D : Domain κ}

/-- The keys from an ordinal on that have a property, in the order of the domain. -/
def Domain.keysFrom (D : Domain κ) (p : Nat → Bool) (start : Nat) : List κ :=
  D.values.filter fun k => decide (start ≤ D.ordinal k) && p (D.ordinal k)

theorem Domain.Lawful.map_keysFrom (hD : D.Lawful) (p : Nat → Bool) {start : Nat} (h : start ≤ D.count) :
    (D.keysFrom p start).map D.ordinal = span p start D.count := by
  have hBelow : span (fun i => decide (start ≤ i) && p i) 0 start = [] := span_eq_nil fun i _ hi => by
    simp [Nat.not_le.mpr hi]
  have hFrom : span (fun i => decide (start ≤ i) && p i) start D.count = span p start D.count :=
    span_congr fun i hi _ => by simp [hi]
  calc
    (D.keysFrom p start).map D.ordinal
      = (D.values.map D.ordinal).filter fun i => decide (start ≤ i) && p i := by
      rw [List.filter_map]
      rfl
    _ = span (fun i => decide (start ≤ i) && p i) 0 D.count := by
      rw [hD.map_ordinal, List.range_eq_range', span, Nat.sub_zero]
    _ = span p start D.count := by
      rw [span_append _ (Nat.zero_le start) h, hBelow, hFrom, List.nil_append]

theorem Domain.Lawful.mem_keysFrom (hD : D.Lawful) {p : Nat → Bool} {start : Nat} {k : κ} :
    k ∈ D.keysFrom p start ↔ start ≤ D.ordinal k ∧ p (D.ordinal k) = true := by
  rw [Domain.keysFrom, List.mem_filter, Bool.and_eq_true, decide_eq_true_iff]
  exact and_iff_right (hD.listed k)

theorem Domain.Lawful.keysFrom_eq_cons (hD : D.Lawful) {p : Nat → Bool} {k : κ} (hk : p (D.ordinal k) = true) :
    ∃ ks, D.keysFrom p (D.ordinal k) = k :: ks := by
  have hOrdinals := hD.map_keysFrom p (hD.ordinal_lt k).le
  rw [span_cons hk (hD.ordinal_lt k)] at hOrdinals
  obtain ⟨k', ks, hKeys, hOrdinal, -⟩ := List.map_eq_cons_iff.mp hOrdinals
  rw [hD.ordinal_injective hOrdinal] at hKeys
  exact ⟨ks, hKeys⟩

namespace Table

variable {t u : Table D ν} {m : Nat → Option ν}

/-- A partial function without its values at some ordinals. -/
def without (m : Nat → Option ν) (is : List Nat) (i : Nat) : Option ν := if i ∈ is then none else m i

theorem without_update (m : Nat → Option ν) (i : Nat) (is : List Nat) :
    without (Function.update m i none) is = without m (i :: is) := by
  funext j
  obtain rfl | hj := eq_or_ne j i
  · simp [without]
  · simp [without, hj]

theorem Shows.without_span (h : t.Shows m) :
    without m (span (fun i => (m i).isSome) 0 D.capacity) = fun _ => none := by
  funext i
  cases hi : m i with
  | none => simp [without, hi]
  | some v => exact if_pos (h.mem_span.mpr (h.holds_of_some hi))

theorem span_update (m : Nat → Option ν) {i start stop : Nat} (h : i < start) :
    span (fun j => (Function.update m i none j).isSome) start stop = span (fun j => (m j).isSome) start stop :=
  span_congr fun _ hj _ => congrArg Option.isSome (Function.update_of_ne (by omega) ..)

/-- Once the entry at `i` is erased, the next one from `i` on is the one that came after it. -/
theorem Shows.liveFrom_erased {i : Nat} (hu : u.Shows (Function.update m i none)) (hlt : i < D.count) :
    u.liveFrom i = (span (fun j => (m j).isSome) (i + 1) D.count).headD D.count ∧
      span (fun j => (Function.update m i none j).isSome) (u.liveFrom i) D.count =
        span (fun j => (m j).isSome) (i + 1) D.count := by
  have hNext := hu.liveFrom hlt.le
  have hDead : (Function.update m i none i).isSome = false := by
    rw [Function.update_self]
    rfl
  have hSpan : span (fun j => (Function.update m i none j).isSome) i D.count =
      span (fun j => (m j).isSome) (i + 1) D.count := by
    rw [span_skip hDead hlt, span_update m (Nat.lt_succ_self i)]
  constructor
  · rw [← hSpan]
    exact hNext.eq_headD
  · rw [← hNext.span_eq hNext.le_stop, hSpan]

variable [Disposal ν]

def releaseAll : List Nat → Action D ν Unit
  | [] => return
  | i :: is => do
    release i
    releaseAll is

theorem Disposed.trans {w : Table D ν} {is js : List Nat} (h : Disposed is t u) (h' : Disposed js u w) :
    Disposed (is ++ js) t w := by
  intro j hj
  rw [h' j hj, h j hj]
  cases Disposal.needed ν with
  | false => simp
  | true =>
    by_cases hMem : j ∈ js
    · simp [hMem]
    · simp [hMem]

/-- From `t` the action gives `a`, and does what releasing these ordinals does. -/
def Releases (x : Action D ν α) (is : List Nat) (t : Table D ν) (a : α) : Prop :=
  ∃ u, releaseAll is t = .ok () u ∧ x t = .ok a u

section Releases

variable {x : Action D ν α} {is : List Nat} {a : α} {b : β}

theorem releases_pure (t : Table D ν) (a : α) : Releases (pure a) [] t a := ⟨t, rfl, rfl⟩

theorem Releases.map {f : α → β} (h : Releases x is t a) : Releases (do return f (← x)) is t (f a) := by
  obtain ⟨u, hAll, hRun⟩ := h
  refine ⟨u, hAll, ?_⟩
  simp only [bind, EStateM.bind, hRun]
  rfl

theorem releases_get_bind {k : Table D ν → Action D ν α} : Releases (get >>= k) is t a ↔ Releases (k t) is t a :=
  Iff.rfl

theorem releases_inspect_bind {f : Table D ν → Except Fault α} {k : α → Action D ν β} (hf : f t = .ok a) :
    Releases (inspect f >>= k) is t b ↔ Releases (k a) is t b := by
  simp only [Releases, bind, EStateM.bind, inspect, hf]

end Releases

variable [Disposal.Quiet ν] {x : Action D ν α} {is : List Nat} {a : α}

/-- Live ordinals can be released one after the other, if none of them is named twice. -/
theorem releaseAll_ends (h : t.Shows m) (hNodup : is.Nodup)
    (hLive : ∀ i ∈ is, (m i).isSome = true) :
    Ends (releaseAll is) t
      (fun _ u => u.Shows (without m is) ∧ u.size + is.length = t.size ∧ Disposed is t u)
      (fun _ _ => False) := by
  induction is generalizing t m with
  | nil => exact ⟨h, rfl, fun j hj => by simp⟩
  | cons i is ih =>
    obtain ⟨hFirst, hRest⟩ := List.nodup_cons.mp hNodup
    obtain ⟨v, hv⟩ := Option.isSome_iff_exists.mp (hLive i List.mem_cons_self)
    apply (release_frame h hv).bind
    · rintro _ u ⟨hu, hSize, hSlots⟩
      have hStillLive : ∀ j ∈ is, (Function.update m i none j).isSome = true := by
        intro j hj
        rw [Function.update_of_ne (ne_of_mem_of_not_mem hj hFirst)]
        exact hLive j (List.mem_cons_of_mem i hj)
      apply (ih hu hRest hStillLive).mono
      · rintro _ w ⟨hw, hSize', hSlots'⟩
        rw [without_update] at hw
        refine ⟨hw, ?_, hSlots.trans hSlots'⟩
        rw [List.length_cons]
        omega
      · exact fun _ _ => False.elim
    · exact fun _ _ hf => Disposal.Quiet.not_stopsOn hf.1

theorem releases_release_bind (h : t.Shows m) {i : Nat} (hi : (m i).isSome = true) {k : Unit → Action D ν α}
    (hk : ∀ u : Table D ν, u.Shows (Function.update m i none) → Releases (k ()) is u a) :
    Releases (release i >>= k) (i :: is) t a := by
  obtain ⟨v, hv⟩ := Option.isSome_iff_exists.mp hi
  obtain ⟨_, u, hRelease, hu⟩ | ⟨_, _, _, hStop, -⟩ := (release_ends h hv).ran
  · obtain ⟨w, hAll, hRun⟩ := hk u hu
    refine ⟨w, ?_, ?_⟩
    · simp only [releaseAll, bind, EStateM.bind, hRelease, hAll]
    · simp only [bind, EStateM.bind, hRelease, hRun]
  · exact absurd hStop Disposal.Quiet.not_stopsOn

theorem Releases.ends (hx : Releases x is t a) (h : t.Shows m) (hNodup : is.Nodup)
    (hLive : ∀ i ∈ is, (m i).isSome = true) :
    ∃ u, releaseAll is t = .ok () u ∧ x t = .ok a u ∧ u.Shows (without m is) ∧ u.size + is.length = t.size ∧
      Disposed is t u := by
  obtain ⟨u, hAll, hRun⟩ := hx
  have hEnds := releaseAll_ends h hNodup hLive
  rw [Ends, hAll] at hEnds
  exact ⟨u, hAll, hRun, hEnds⟩

theorem eraseSpan_releases (h : t.Shows m) {count start stop : Nat} (hStop : start + count = stop) :
    Releases (eraseSpan count start) (span (fun i => (m i).isSome) start stop) t
      (span (fun i => (m i).isSome) start stop).length := by
  induction count generalizing t m start with
  | zero =>
    obtain rfl : start = stop := hStop
    rw [span_self]
    exact releases_pure t 0
  | succ count ih =>
    have hlt : start < stop := by omega
    have hRest : start + 1 + count = stop := by omega
    rw [eraseSpan, releases_get_bind, h.holds]
    cases hLive : (m start).isSome with
    | false =>
      rw [span_skip hLive hlt]
      exact ih h hRest
    | true =>
      rw [span_cons hLive hlt, List.length_cons]
      apply releases_release_bind h hLive
      intro u hu
      have hSpan := ih hu hRest
      rw [span_update m (Nat.lt_succ_self start)] at hSpan
      exact hSpan.map

/-- Each round releases the first entry from its ordinal on, and goes on after it. -/
theorem releaseFrom_releases (h : t.Shows m) (limit start : Nat) :
    Releases (releaseFrom limit start) ((span (fun i => (m i).isSome) start D.capacity).take limit) t () := by
  induction limit generalizing t m start with
  | zero => exact releases_pure t ()
  | succ limit ih =>
    rw [releaseFrom, releases_get_bind]
    cases hNext : t.occupancy.next? start with
    | none =>
      have hNil : span (fun i => (m i).isSome) start D.capacity = [] := span_eq_nil fun i hi _ => by
        rw [← h.holds]
        exact Bitmap.next?_eq_none hNext hi
      rw [hNil]
      exact releases_pure t ()
    | some i =>
      obtain ⟨hi, hMember, hBelow⟩ := Bitmap.next?_eq_some hNext
      have hLive : (m i).isSome = true := (h.holds i).symm.trans hMember
      have hSkipped : span (fun i => (m i).isSome) start i = [] := span_eq_nil fun j hj hlt => by
        rw [← h.holds]
        exact hBelow j hj hlt
      rw [span_append _ hi (Bitmap.lt_of_contains hMember).le, hSkipped, List.nil_append,
        span_cons hLive (Bitmap.lt_of_contains hMember), List.take_succ_cons]
      apply releases_release_bind h hLive
      intro u hu
      rw [← span_update m (Nat.lt_succ_self i)]
      exact ih hu (i + 1)

/-- After any number of rounds of the loop over all entries. -/
theorem releaseFrom_rounds (h : t.Shows m) (limit : Nat) :
    ∃ u, releaseFrom limit 0 t = .ok () u ∧
      releaseAll ((span (fun i => (m i).isSome) 0 D.capacity).take limit) t = .ok () u ∧
      u.Shows (without m ((span (fun i => (m i).isSome) 0 D.capacity).take limit)) ∧ u.size = t.size - limit ∧
      Disposed ((span (fun i => (m i).isSome) 0 D.capacity).take limit) t u := by
  obtain ⟨u, hAll, hRun, hu, hSize, hSlots⟩ := (releaseFrom_releases h limit 0).ends h
    ((nodup_span _ _ _).sublist (List.take_sublist limit _)) fun i hi => (mem_span.mp (List.mem_of_mem_take hi)).2.2
  refine ⟨u, hRun, hAll, hu, ?_, hSlots⟩
  rw [List.length_take, h.length_span] at hSize
  omega

/-- One round for each entry is enough, and more rounds do nothing. -/
theorem releaseFrom_finishes (h : t.Shows m) :
    ∃ w, (∀ limit, t.size ≤ limit → releaseFrom limit 0 t = .ok () w) ∧ w.Shows fun _ => none := by
  obtain ⟨w, -, hAll, hw, -, -⟩ := releaseFrom_rounds h t.size
  rw [List.take_of_length_le h.length_span.le] at hAll hw
  refine ⟨w, ?_, h.without_span ▸ hw⟩
  intro limit hLimit
  obtain ⟨u, hRun, hSame, -⟩ := releaseFrom_rounds h limit
  rw [List.take_of_length_le (h.length_span.trans_le hLimit), hAll] at hSame
  cases hSame
  exact hRun

/-- Erases at a key and goes on at the key under the cursor returned, until that is out of
range or `limit` entries are erased. Returns the keys erased and the one to go on at. -/
def eraseOnward : (limit : Nat) → κ → Action D ν (List κ × Option κ)
  | 0, k => return ([], some k)
  | limit + 1, k => do
    let p ← eraseAt k
    if p.position.isOutOfRange then return ([k], none)
    let e ← inspect fun t => (t.entry p).1
    let (ks, next) ← eraseOnward limit e.key
    return (k :: ks, next)

theorem releases_eraseAt_bind (h : t.Shows m) {k : κ} (hLive : (m (D.ordinal k)).isSome = true)
    {f : Position .writable .forward → Action D ν α}
    (hf : ∀ u : Table D ν, u.Shows (Function.update m (D.ordinal k) none) →
      Releases (f (D.position .writable (u.liveFrom (D.ordinal k)))) is u a) :
    Releases (eraseAt k >>= f) (D.ordinal k :: is) t a := by
  have hErase : Releases
      (release (D.ordinal k) >>= fun _ => inspect (fun t => t.positionFrom .writable (D.ordinal k)) >>= f)
      (D.ordinal k :: is) t a := by
    apply releases_release_bind h hLive
    intro u hu
    exact (releases_inspect_bind (u.positionFrom_eq _)).mpr (hf u hu)
  have hContains : t.contains k = true := (h.contains k).trans hLive
  obtain ⟨u, hAll, hRun⟩ := hErase
  refine ⟨u, hAll, ?_⟩
  rw [← hRun, eraseAt]
  change (ite (t.contains k = true) _ _ >>= f) t = _
  rw [if_pos hContains, bind_assoc]

/-- The loop erases the first `limit` of the live keys from its key on, and goes on at
the one after them. -/
theorem eraseOnward_releases (hD : D.Lawful) (h : t.Shows m) {k : κ} {ks : List κ}
    (hKeys : (k :: ks).map D.ordinal = span (fun i => (m i).isSome) (D.ordinal k) D.count) (limit : Nat) :
    Releases (eraseOnward limit k) (((k :: ks).map D.ordinal).take limit) t
      ((k :: ks).take limit, (k :: ks)[limit]?) := by
  induction limit generalizing t m k ks with
  | zero => exact releases_pure t _
  | succ limit ih =>
    have hlt := hD.ordinal_lt k
    have hMem : D.ordinal k ∈ span (fun i => (m i).isSome) (D.ordinal k) D.count := hKeys ▸ List.mem_cons_self
    obtain ⟨-, -, hLive⟩ := mem_span.mp hMem
    rw [span_cons hLive hlt, List.map_cons, List.cons.injEq] at hKeys
    rw [eraseOnward, List.map_cons, List.take_succ_cons, List.take_succ_cons, List.getElem?_cons_succ]
    apply releases_eraseAt_bind h hLive
    intro u hu
    obtain ⟨hHead, hSpan⟩ := hu.liveFrom_erased hlt
    rw [← hKeys.2] at hHead hSpan
    cases ks with
    | nil =>
      have hEnd : u.liveFrom (D.ordinal k) = D.count := hHead
      have hOut : (D.position .writable D.count).position.isOutOfRange = true := decide_eq_true le_rfl
      rw [hEnd, if_pos hOut, List.map_nil, List.take_nil, List.take_nil, List.getElem?_nil]
      exact releases_pure u _
    | cons k' ks =>
      have hHere : u.liveFrom (D.ordinal k) = D.ordinal k' := hHead
      have hIn : (D.position .writable (D.ordinal k')).position.isOutOfRange = false :=
        decide_eq_false (Nat.not_le.mpr (hD.ordinal_lt k'))
      rw [hHere] at hSpan
      have hMem' := List.mem_cons_self (a := D.ordinal k') (l := ks.map D.ordinal)
      rw [← List.map_cons, ← hSpan] at hMem'
      obtain ⟨v, hv⟩ := Option.isSome_iff_exists.mp (mem_span.mp hMem').2.2
      have hEntry : (u.entry (D.position .writable (D.ordinal k'))).1 =
          .ok { ordinal := D.ordinal k', key := k', value := v } := entryAt_ordinal hD hu hv
      rw [hHere, hIn, if_neg Bool.false_ne_true, releases_inspect_bind hEntry]
      exact (ih hu hSpan.symm).map

end Table

end OrdinalMap
