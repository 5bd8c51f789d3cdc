import Growable.Proofs.SharedArray.Gated.Calls
import Growable.Proofs.SharedArray.Reference

/-!
# Strategies around any store and any length

A strategy may be built around parts that do not fit: a length beyond the end of the store, or more
elements or slots than are allowed. The seven kinds agree there as well, whatever is done with them
one thing after the other. They differ in two places only. An access between the end of the store
and the length is refused where each access is checked against the store it reaches, and broken off
everywhere else; either way nothing has changed. An append that needs a store beyond the limits of
the machine is broken off, and changes neither the store nor the length; but where an append takes
its index first the index is gone, and when all are gone that are allowed such an append is refused.
Every other append is refused, or fills the gap with defaults.
-/

namespace Growable

namespace Store

variable {α : Type} {s : Store α} {i n : Nat}

theorem get?_eq_none_iff : s.get? i = none ↔ s.capacity ≤ i := Array.getElem?_eq_none_iff

theorem get?_grown_of_le [Inhabited α] (h : s.capacity ≤ i) (hi : i < n) :
    (s.grown n).get? i = some default := by
  simp only [capacity] at h
  rw [get?, grown, ofValues, Array.getElem?_append_right h, Array.getElem?_replicate,
    if_pos (by omega)]

end Store

namespace SharedArray

open Lock (Monitors)

/-! ## Accesses beyond the store -/

/-- What an access comes to on a kind of strategy, with that many tries of a read without the gate,
if its index is below the length but past the end of the store. -/
def beyondOf {α : Type} (k : Kind) (tries : Nat) (a : Access α) (i len : Nat) : Answer α :=
  match k, a with
  | .fixedSize, _ => .refused (.indexOutOfBounds i len)
  | .stampedLock, .load => if tries = 0 then .brokenOff else .refused (.indexOutOfBounds i len)
  | _, _ => .brokenOff

/-- The call is a read or a write between the end of the store and the length. -/
def Call.IsBeyond {α : Type} (c : Call α) (capacity len : Nat) : Prop :=
  ∃ (a : Access α) (i : Nat), c = a.call i ∧ capacity ≤ i ∧ i < len

namespace Parts

variable {α : Type} {p q : Parts α} {limits : Limits} {allowed taken taken' required i : Nat}
  {beyond beyond' : Access α → Nat → Nat → Answer α}

theorem access_of_beyond (a : Access α) (hcap : p.store.capacity ≤ i) (hlen : i < p.length) :
    p.access beyond i a = (p, beyond a i p.length) := by
  have hnone : p.store.get? i = none := Store.get?_eq_none_iff.mpr hcap
  simp only [access, if_pos hlen, hnone]

theorem access_congr (a : Access α) (h : ¬ (p.store.capacity ≤ i ∧ i < p.length)) :
    p.access beyond i a = p.access beyond' i a := by
  by_cases hlen : i < p.length
  · obtain ⟨v, hv⟩ : ∃ v, p.store.get? i = some v := by
      rw [← Option.ne_none_iff_exists', Ne, Store.get?_eq_none_iff]
      omega
    cases a <;> simp only [access, if_pos hlen, hv]
  · cases a <;> simp only [access, if_neg hlen]

variable [Inhabited α]

theorem perform_of_beyond (a : Access α) (hcap : p.store.capacity ≤ i) (hlen : i < p.length) :
    p.perform limits allowed taken beyond (a.call i) = (p, beyond a i p.length) := by
  cases a <;> exact access_of_beyond _ hcap hlen

/-- Room is made by adding defaults. -/
theorem makeRoom_spec (h : p.makeRoom limits allowed required = .ok q) :
    required ≤ q.store.capacity ∧ q.length = p.length ∧
      (∀ j < p.store.capacity, q.store.get? j = p.store.get? j) ∧
      ∀ j, p.store.capacity ≤ j → j < q.store.capacity → q.store.get? j = some default := by
  have hroom := room_makeRoom limits allowed p required
  rw [h] at hroom
  obtain ⟨hfits, hlength⟩ := hroom.of_ok
  refine ⟨hfits, hlength, ?_⟩
  cases hroom with
  | there => exact ⟨fun j _ => rfl, fun j hcap hlt => absurd hlt (Nat.not_lt.mpr hcap)⟩
  | made hlt hn hholds =>
    refine ⟨fun j hj => Store.get?_grown_of_lt _ _ hj, fun j hcap hj => ?_⟩
    rw [Store.capacity_grown] at hj
    exact Store.get?_grown_of_le hcap (by omega)

/-- What is left of the parts by an append that succeeds: the element behind the last one, the slots
there were, and defaults in between. -/
structure Appended (p : Parts α) (v : α) (q : Parts α) : Prop where
  length : q.length = p.length + 1
  fits : q.length ≤ q.store.capacity
  last : q.store.get? p.length = some v
  kept : ∀ j < p.store.capacity, j ≠ p.length → q.store.get? j = p.store.get? j
  gap : ∀ j, p.store.capacity ≤ j → j < p.length → q.store.get? j = some default

/-- An append succeeds as long as fewer elements are there than are allowed and there is room for
one more. -/
theorem append_of_admits (htaken : p.Taken limits allowed taken) (hlt : p.length < allowed)
    (hadmits : limits.Admits p.store.capacity (p.length + 1) allowed) (v : α) :
    (p.append limits allowed taken v).2 = .index p.length ∧
      p.Appended v (p.append limits allowed taken v).1 := by
  obtain rfl := htaken.eq_length hadmits
  obtain ⟨q, hq⟩ := exists_makeRoom_of_admits hadmits hlt
  obtain ⟨hroom, hlength, hkept, hnew⟩ := makeRoom_spec hq
  rw [append, if_pos hlt, hq]
  refine ⟨rfl, rfl, ?_, ?_, ?_, ?_⟩
  · show p.length + 1 ≤ (q.store.set p.length v).capacity
    rw [Store.capacity_set]
    exact hroom
  · exact Store.get?_set_self _ _ (by omega)
  · intro j hj hne
    show (q.store.set p.length v).get? j = _
    rw [Store.get?_set_of_ne _ _ (Ne.symm hne)]
    exact hkept j hj
  · intro j hcap hj
    show (q.store.set p.length v).get? j = _
    rw [Store.get?_set_of_ne _ _ (by omega)]
    exact hnew j hcap (by omega)

omit [Inhabited α] in
theorem Taken.eq_of_le (h : p.Taken limits allowed taken) (hle : allowed ≤ p.length) :
    taken = p.length :=
  h.resolve_right fun hmore => by omega

/-- An append is refused where there are as many elements as are allowed. -/
theorem append_of_le (htaken : p.Taken limits allowed taken) (hle : allowed ≤ p.length) (v : α) :
    p.append limits allowed taken v = (p, .full limits p.length allowed) := by
  obtain rfl := htaken.eq_of_le hle
  rw [append, if_neg (Nat.not_lt.mpr hle)]

theorem append_of_not_admits (hnot : ¬ limits.Admits p.store.capacity (p.length + 1) allowed)
    (taken : Nat) (v : α) :
    p.append limits allowed taken v =
      (p, if taken < allowed then .overflowed else .full limits taken allowed) := by
  rw [append]
  split
  · rw [makeRoom_of_not_admits hnot]
  · rfl

/-- What a call comes to that is neither an access beyond the store nor an append that there is no
room for hangs on nothing else. -/
theorem perform_congr {c : Call α} (htaken : p.Taken limits allowed taken)
    (htaken' : p.Taken limits allowed taken') (h : ¬ c.IsBeyond p.store.capacity p.length)
    (hadmits : ∀ v, c = .append v → limits.Admits p.store.capacity (p.length + 1) allowed) :
    p.perform limits allowed taken beyond c = p.perform limits allowed taken' beyond' c := by
  cases c with
  | append v =>
    rw [htaken.eq_length (hadmits v rfl), htaken'.eq_length (hadmits v rfl)]
    rfl
  | read i => exact access_congr .load fun hi => h ⟨.load, i, rfl, hi⟩
  | write i v => exact access_congr (.store v) fun hi => h ⟨.store v, i, rfl, hi⟩
  | _ => rfl

/-- What is left of the parts hangs neither on how accesses beyond the store are answered nor on how
many indices are taken. -/
theorem perform_fst (htaken : p.Taken limits allowed taken)
    (htaken' : p.Taken limits allowed taken') (beyond beyond' : Access α → Nat → Nat → Answer α)
    (c : Call α) : (p.perform limits allowed taken beyond c).1 =
      (p.perform limits allowed taken' beyond' c).1 := by
  by_cases h : c.IsBeyond p.store.capacity p.length
  · obtain ⟨a, i, rfl, hcap, hlen⟩ := h
    rw [perform_of_beyond a hcap hlen, perform_of_beyond a hcap hlen]
  · by_cases hadmits : limits.Admits p.store.capacity (p.length + 1) allowed
    · rw [perform_congr htaken htaken' h fun _ _ => hadmits]
    · cases c with
      | append v =>
        simp only [Parts.perform]
        rw [append_of_not_admits hadmits, append_of_not_admits hadmits]
      | _ => rw [perform_congr htaken htaken' h (by rintro v ⟨⟩)]

/-- No call but an append changes the length. -/
theorem length_perform {c : Call α} (h : ∀ v, c ≠ .append v) :
    (p.perform limits allowed taken beyond c).1.length = p.length := by
  cases c with
  | append v => exact absurd rfl (h v)
  | read i => exact (access_fst beyond p i .load).1
  | write i v => exact (access_fst beyond p i (.store v)).1
  | ensureCapacity n =>
    simp only [Parts.perform]
    split
    · rename_i q hq
      exact (makeRoom_spec hq).2.1
    · rfl
  | _ => rfl

end Parts

/-! ## Uses -/

/-- What the owner of a strategy may do with it. -/
inductive Use (α : Type) where
  | call (c : Call α)
  /-- Gives back replaced stores that are still kept. -/
  | reclaim
  deriving DecidableEq, Repr

namespace Strategy

variable {L : Monitors} {α : Type} [Inhabited α]

/-- The strategy once it was put to a use, and what that was answered with. -/
def use (s : Strategy L α) : Use α → Strategy L α × Answer α
  | .call c => s.perform c
  | .reclaim => (s.reclaim.1, .done)

/-- The strategy once it was put to some uses, one after the other. -/
def after (s : Strategy L α) (us : List (Use α)) : Strategy L α :=
  us.foldl (fun s u => (s.use u).1) s

/-- What is seen of a strategy, use by use. -/
def outcomes (s : Strategy L α) : List (Use α) → List (Outcome α)
  | [] => []
  | u :: us =>
    let next := s.use u
    ⟨next.2, next.1.length, next.1.capacity⟩ :: next.1.outcomes us

variable {limits : Limits} {allowed : Nat} {p : Parts α} {s s' : Strategy L α}

omit [Inhabited α] in
theorem beyond_ofStore (k : Kind) (store : Store α) (len : Nat) (config : Config) :
    (ofStore k store len config limits : Strategy L α).beyond =
      beyondOf k config.optimisticRetries := by
  funext a i n
  cases k with
  | stampedLock =>
    cases a with
    | load =>
      show (if true = true ∧ config.optimisticRetries ≠ 0 then _ else _) = if _ then _ else _
      by_cases htries : config.optimisticRetries = 0 <;> simp [htries]
    | store v => rfl
  | _ => cases a <;> rfl

omit [Inhabited α] in
theorem kind_ofStore (k : Kind) (store : Store α) (len : Nat) (config : Config) :
    (ofStore k store len config limits : Strategy L α).kind = k := by
  have hdiscipline : (ofStore k store len config limits : Strategy L α).discipline =
      Discipline.ofKind k := by
    unfold ofStore
    cases Discipline.ofKind k <;> rfl
  rw [kind, hdiscipline, Discipline.kind_ofKind]

omit [Inhabited α] in
theorem reclaim_fst (s : Strategy L α) : s.reclaim.1.kind = s.kind ∧
    s.reclaim.1.beyond = s.beyond ∧ s.reclaim.1.taken = s.taken := by
  cases s <;> exact ⟨rfl, rfl, rfl⟩

variable (hL : L.Lawful)

include hL

/-- A use comes to the same on every strategy that is the same to a thread by itself. -/
theorem Holds.use (h : s.Holds limits allowed p) (u : Use α) :
    ∃ q, (∀ {s' : Strategy L α}, s'.Holds limits allowed p → (s'.use u).1.Holds limits allowed q) ∧
      (s.use u).1.kind = s.kind ∧ (s.use u).1.beyond = s.beyond := by
  cases u with
  | call c =>
    obtain ⟨-, -, hkind, hbeyond, -⟩ := h.perform hL c
    refine ⟨(p.perform limits allowed s.taken s.beyond c).1, ?_, hkind, hbeyond⟩
    intro s' h'
    rw [Parts.perform_fst h.taken h'.taken s.beyond s'.beyond]
    exact (h'.perform hL c).2.1
  | reclaim =>
    obtain ⟨hkind, hbeyond, -⟩ := s.reclaim_fst
    exact ⟨p, fun h' => h'.reclaim, hkind, hbeyond⟩

/-- No use but an append takes an index. -/
theorem Holds.taken_use (h : s.Holds limits allowed p) {u : Use α}
    (hu : ∀ v, u ≠ .call (.append v)) : (s.use u).1.taken = s.taken := by
  cases u with
  | call c =>
    have hc : ∀ v, c ≠ .append v := fun v hv => hu v (congrArg Use.call hv)
    obtain ⟨-, h', hkind, -, htaken⟩ := h.perform hL c
    refine htaken.trans ?_
    unfold takenAfter
    split
    · cases c with
      | append v => exact absurd rfl (hc v)
      | _ => rfl
    · rename_i hreserves
      rw [Parts.length_perform hc]
      exact (h.taken_eq (by simpa using hreserves)).symm
  | reclaim => exact s.reclaim_fst.2.2

/-- What is seen of a strategy hangs on its parts, on the indices that are taken, on whether appends
take theirs first, and on how it answers accesses beyond the store. -/
theorem Holds.outcomes_eq (h : s.Holds limits allowed p) (h' : s'.Holds limits allowed p)
    (hbeyond : s'.beyond = s.beyond) (htaken : s'.taken = s.taken)
    (hkind : s'.kind.reserves = s.kind.reserves) (us : List (Use α)) :
    s'.outcomes us = s.outcomes us := by
  induction us generalizing s s' p with
  | nil => rfl
  | cons u us ih =>
    obtain ⟨q, hq, hkind₁, hbeyond₁⟩ := h.use hL u
    obtain ⟨-, -, hkind₂, hbeyond₂⟩ := h'.use hL u
    obtain ⟨hanswer, htaken'⟩ : (s'.use u).2 = (s.use u).2 ∧
        (s'.use u).1.taken = (s.use u).1.taken := by
      cases u with
      | call c =>
        obtain ⟨hanswer₁, -, -, -, htaken₁⟩ := h.perform hL c
        obtain ⟨hanswer₂, -, -, -, htaken₂⟩ := h'.perform hL c
        rw [hbeyond, htaken] at hanswer₂ htaken₂
        refine ⟨hanswer₂.trans hanswer₁.symm, htaken₂.trans (htaken₁.trans ?_).symm⟩
        unfold takenAfter
        rw [hkind, htaken]
      | reclaim => exact ⟨rfl, (s'.reclaim_fst.2.2.trans htaken).trans s.reclaim_fst.2.2.symm⟩
    have hrest := ih (hq h) (hq h') (by rw [hbeyond₁, hbeyond₂, hbeyond]) htaken'
      (by rw [hkind₁, hkind₂, hkind])
    simp only [Strategy.outcomes]
    rw [hanswer, hrest, (hq h).length, (hq h').length, (hq h).capacity, (hq h').capacity]

/-- An access between the end of the store and the length is answered as the kind does, and nothing
that is seen afterwards hangs on it. -/
theorem Holds.access_beyond (h : s.Holds limits allowed p) (a : Access α) {i : Nat}
    (hcap : p.store.capacity ≤ i) (hi : i < p.length) :
    (s.perform (a.call i)).2 = s.beyond a i p.length ∧
      (s.perform (a.call i)).1.Holds limits allowed p ∧
      ∀ us, (s.perform (a.call i)).1.outcomes us = s.outcomes us := by
  obtain ⟨hanswer, h', hkind, hbeyond, -⟩ := h.perform hL (a.call i)
  rw [Parts.perform_of_beyond a hcap hi] at hanswer h'
  have htaken := h.taken_use hL (u := .call (a.call i)) (by cases a <;> rintro v ⟨⟩)
  exact ⟨hanswer, h', h.outcomes_eq hL h' hbeyond htaken (by rw [hkind])⟩

/-- An append is refused where there are as many elements as are allowed. -/
theorem Holds.append_of_le (h : s.Holds limits allowed p) (hle : allowed ≤ p.length) (v : α) :
    (s.perform (.append v)).2 = .full limits p.length allowed ∧
      (s.perform (.append v)).1.Holds limits allowed p := by
  obtain ⟨hanswer, h', -⟩ := h.perform hL (.append v)
  simp only [Parts.perform, Parts.append_of_le h.taken hle] at hanswer h'
  exact ⟨hanswer, h'⟩

/-- An append succeeds as long as fewer elements are there than are allowed and there is room for
one more. -/
theorem Holds.append_of_admits (h : s.Holds limits allowed p) (hlt : p.length < allowed)
    (hadmits : limits.Admits p.store.capacity (p.length + 1) allowed) (v : α) :
    ∃ q, (s.perform (.append v)).2 = .index p.length ∧
      (s.perform (.append v)).1.Holds limits allowed q ∧ p.Appended v q := by
  obtain ⟨hanswer, h', -⟩ := h.perform hL (.append v)
  obtain ⟨hindex, happended⟩ := Parts.append_of_admits h.taken hlt hadmits v
  exact ⟨_, hanswer.trans hindex, h', happended⟩

/-- An append that the machine has no room for leaves the parts, and takes an index only where an
append takes its index first. -/
theorem Holds.append_of_not_admits (h : s.Holds limits allowed p)
    (hnot : ¬ limits.Admits p.store.capacity (p.length + 1) allowed) (v : α) :
    (s.perform (.append v)).2 =
        (if s.taken < allowed then .overflowed else .full limits s.taken allowed) ∧
      (s.perform (.append v)).1.Holds limits allowed p ∧
      (s.perform (.append v)).1.taken =
        (if s.kind.reserves = true ∧ s.taken < allowed then s.taken + 1 else s.taken) ∧
      (s.kind.reserves = false → ∀ us, (s.perform (.append v)).1.outcomes us = s.outcomes us) := by
  obtain ⟨hanswer, h', hkind, hbeyond, htaken⟩ := h.perform hL (.append v)
  simp only [Parts.perform, Parts.append_of_not_admits hnot] at hanswer h' htaken
  have htaken' : (s.perform (.append v)).1.taken =
      if s.kind.reserves = true ∧ s.taken < allowed then s.taken + 1 else s.taken := by
    rw [htaken, takenAfter]
    cases hk : s.kind.reserves with
    | true => simp [Parts.takenAfter]
    | false => simpa using (h.taken_eq hk).symm
  refine ⟨hanswer, h', htaken', fun hk us => ?_⟩
  refine h.outcomes_eq hL h' hbeyond (htaken'.trans ?_) (by rw [hkind]) us
  simp [hk]

/-- Strategies of all kinds around the same parts are the same to a thread by itself, whatever they
were put to. -/
theorem holds_after (store : Store α) (len : Nat) (config : Config) (limits : Limits)
    (us : List (Use α)) :
    ∃ p, ∀ k, let s : Strategy L α := (ofStore k store len config limits).after us
      s.Holds limits config.maxCapacity p ∧ s.kind = k ∧
        s.beyond = beyondOf k config.optimisticRetries := by
  induction us using List.reverseRecOn with
  | nil =>
    exact ⟨⟨store, len⟩, fun k => ⟨holds_ofStore k ⟨store, len⟩ config limits,
      kind_ofStore k store len config, beyond_ofStore k store len config⟩⟩
  | append_singleton us u ih =>
    obtain ⟨p, hp⟩ := ih
    obtain ⟨q, hq, -⟩ := (hp .fixedSize).1.use hL u
    refine ⟨q, fun k => ?_⟩
    obtain ⟨-, -, hkind, hbeyond⟩ := (hp k).1.use hL u
    simp only [after, List.foldl_append]
    exact ⟨hq (hp k).1, hkind.trans (hp k).2.1, hbeyond.trans (hp k).2.2⟩

omit hL

/-! ## Every kind is like every other -/

/-- There is room for one more element, or the machine has a store that has, or no more elements are
allowed. -/
def Admits (s : Strategy L α) (limits : Limits) (allowed : Nat) : Prop :=
  limits.Admits s.capacity (s.length + 1) allowed

/-- A strategy of a kind, on a machine with limits, beside strategies of all kinds that were put to
the same uses. -/
structure Uniform (k : Kind) (config : Config) (limits : Limits) (s : Strategy L α)
    (each : Kind → Strategy L α) : Prop where
  /-- All have the same length and the same capacity, and come apart into the same parts. -/
  parts : ∀ k', (each k').length = s.length ∧ (each k').capacity = s.capacity ∧
    (each k').intoParts.1 = s.intoParts.1 ∧ (each k').intoParts.2.1 = s.intoParts.2.1
  /-- All answer the next call alike, unless it is an access between the end of the store and the
  length, or an append that the machine has no room for. -/
  answer : ∀ (k' : Kind) (c : Call α), ¬ c.IsBeyond s.capacity s.length →
    (∀ v, c = .append v → s.Admits limits config.maxCapacity) →
    ((each k').perform c).2 = (s.perform c).2
  /-- Such an access is answered as the kind does, -/
  beyond : ∀ (a : Access α) (i : Nat), s.capacity ≤ i → i < s.length →
    (s.perform (a.call i)).2 = beyondOf k config.optimisticRetries a i s.length
  /-- and leaves the parts, and all that is seen afterwards, as if it had not been made. -/
  unchanged : ∀ (a : Access α) (i : Nat), s.capacity ≤ i → i < s.length →
    (s.perform (a.call i)).1.intoParts.1 = s.intoParts.1 ∧
    (s.perform (a.call i)).1.intoParts.2.1 = s.intoParts.2.1 ∧
    ∀ us, (s.perform (a.call i)).1.outcomes us = s.outcomes us
  /-- An append is refused once there are as many elements as are allowed, and changes nothing. -/
  refuses : ∀ v, config.maxCapacity ≤ s.length →
    (s.perform (.append v)).2 = .full limits s.length config.maxCapacity ∧
    (s.length < maxSize → (s.perform (.append v)).2 =
      .refused (.capacityOverflow (s.length + 1) config.maxCapacity)) ∧
    (s.perform (.append v)).1.intoParts.1 = s.intoParts.1 ∧
    (s.perform (.append v)).1.intoParts.2.1 = s.intoParts.2.1
  /-- Before that it succeeds, unless the machine has no room. Then the store holds all elements:
  the new one, those there were, and defaults in between. -/
  appends : ∀ v, s.length < config.maxCapacity → s.Admits limits config.maxCapacity →
    (s.perform (.append v)).2 = .index s.length ∧
    (s.perform (.append v)).1.length = s.length + 1 ∧
    (s.perform (.append v)).1.length ≤ (s.perform (.append v)).1.capacity ∧
    (s.perform (.append v)).1.intoParts.1.get? s.length = some v ∧
    (∀ j < s.capacity, j ≠ s.length →
      (s.perform (.append v)).1.intoParts.1.get? j = s.intoParts.1.get? j) ∧
    ∀ j, s.capacity ≤ j → j < s.length →
      (s.perform (.append v)).1.intoParts.1.get? j = some default ∧
      ((s.perform (.append v)).1.perform (.read j)).2 = .value default
  /-- An append that the machine has no room for is broken off, or is refused once all indices are
  taken that are allowed. It changes no part, and nothing at all unless it takes its index first. -/
  overflows : ∀ v, s.length < config.maxCapacity → ¬ s.Admits limits config.maxCapacity →
    (s.perform (.append v)).2 =
      (if s.taken < config.maxCapacity then .overflowed
        else .full limits s.taken config.maxCapacity) ∧
    (s.perform (.append v)).1.taken =
      (if k.reserves = true ∧ s.taken < config.maxCapacity then s.taken + 1 else s.taken) ∧
    (s.perform (.append v)).1.intoParts.1 = s.intoParts.1 ∧
    (s.perform (.append v)).1.intoParts.2.1 = s.intoParts.2.1 ∧
    (k.reserves = false → ∀ us, (s.perform (.append v)).1.outcomes us = s.outcomes us)
  /-- As many indices are taken as there are elements, unless appends that the machine had no room
  for took some more, -/
  taken : s.taken = s.length ∨
    k.reserves = true ∧ ¬ s.Admits limits config.maxCapacity ∧ s.length < s.taken ∧
      s.taken ≤ config.maxCapacity
  /-- and nothing but an append takes one. -/
  kept : ∀ u : Use α, (∀ v, u ≠ .call (.append v)) → (s.use u).1.taken = s.taken

/-- However long a strategy was used, around whatever store, length and settings and on whatever
machine, it is like the strategies of the other kinds. -/
theorem uniform_after (hL : L.Lawful) (k : Kind) (store : Store α) (len : Nat) (config : Config)
    (limits : Limits) (us : List (Use α)) :
    Uniform k config limits ((ofStore k store len config limits : Strategy L α).after us)
      fun k' => (ofStore k' store len config limits).after us := by
  obtain ⟨p, hp⟩ := holds_after hL store len config limits us
  obtain ⟨h, hkind, hbeyond⟩ := hp k
  generalize (ofStore k store len config limits : Strategy L α).after us = s at h hkind hbeyond
  have hlength := h.length
  have hcapacity := h.capacity
  obtain ⟨hstore, hlen⟩ := h.intoParts
  have hadmits : s.Admits limits config.maxCapacity ↔
      limits.Admits p.store.capacity (p.length + 1) config.maxCapacity := by
    rw [Admits, hcapacity, hlength]
  refine ⟨?_, ?_, ?_, ?_, ?_, ?_, ?_, ?_, fun u hu => h.taken_use hL hu⟩
  · intro k'
    obtain ⟨h', -⟩ := hp k'
    rw [hlength, hcapacity, hstore, hlen]
    exact ⟨h'.length, h'.capacity, h'.intoParts.1, h'.intoParts.2⟩
  · intro k' c hc hroom
    rw [hcapacity, hlength] at hc
    obtain ⟨h', -⟩ := hp k'
    rw [(h.perform hL c).1, (h'.perform hL c).1,
      Parts.perform_congr h.taken h'.taken hc fun v hv => hadmits.mp (hroom v hv)]
  · intro a i hcap hi
    rw [hlength, ← hbeyond]
    exact (h.access_beyond hL a (hcapacity ▸ hcap) (hlength ▸ hi)).1
  · intro a i hcap hi
    obtain ⟨-, h', hunseen⟩ := h.access_beyond hL a (hcapacity ▸ hcap) (hlength ▸ hi)
    rw [hstore, hlen]
    exact ⟨h'.intoParts.1, h'.intoParts.2, hunseen⟩
  · intro v hmax
    rw [hlength] at hmax ⊢
    obtain ⟨hanswer, h'⟩ := h.append_of_le hL hmax v
    rw [hstore, hlen]
    refine ⟨hanswer, fun hlt => hanswer.trans ?_, h'.intoParts.1, h'.intoParts.2⟩
    rw [Answer.full, Limits.succ?, if_pos hlt]
  · intro v hlt hroom
    rw [hlength] at hlt ⊢
    obtain ⟨q, hanswer, h', happended⟩ := h.append_of_admits hL hlt (hadmits.mp hroom) v
    rw [hcapacity, hstore, h'.length, h'.capacity, h'.intoParts.1]
    refine ⟨hanswer, happended.length, happended.fits, happended.last, happended.kept, ?_⟩
    intro j hcap hj
    have hget := happended.gap j hcap hj
    have hin : j < q.length := happended.length ▸ Nat.lt_succ_of_lt hj
    refine ⟨hget, ?_⟩
    rw [(h'.perform hL _).1]
    simp only [Parts.perform, Parts.access, if_pos hin, hget]
  · intro v hlt hnot
    obtain ⟨hanswer, h', htaken, hunseen⟩ := h.append_of_not_admits hL (mt hadmits.mpr hnot) v
    rw [hkind] at htaken hunseen
    rw [hstore, hlen]
    exact ⟨hanswer, htaken, h'.intoParts.1, h'.intoParts.2, hunseen⟩
  · rw [hadmits, hlength]
    cases hk : k.reserves with
    | false => exact .inl (h.taken_eq (by rw [hkind, hk]))
    | true =>
      rcases h.taken with heq | ⟨hlt, hle, hnot⟩
      · exact .inl heq
      · exact .inr ⟨rfl, hnot, hlt, hle⟩

/-- Two appends to a store that cannot be made as large as it would have to be. -/
def appendTwice : List (Use UInt8) := [.call (.append 1), .call (.append 2)]

/-- A machine with room for as many bytes as the positive half of the sizes counts. -/
def bytesLimit : Limits := .ofSlotBytes 1 .wraps

theorem uniform_after_appendTwice :
    Monitors.Lawful {} ∧
    Uniform .stampedLock { maxCapacity := 2 ^ 63 + 1 } bytesLimit
      ((ofStore .stampedLock ⟨#[]⟩ (2 ^ 63) { maxCapacity := 2 ^ 63 + 1 } bytesLimit :
        Strategy {} UInt8).after appendTwice)
      fun k => (ofStore k ⟨#[]⟩ (2 ^ 63) { maxCapacity := 2 ^ 63 + 1 } bytesLimit).after
        appendTwice :=
  ⟨Monitors.lawful_default, uniform_after Monitors.lawful_default .stampedLock ⟨#[]⟩ (2 ^ 63)
    { maxCapacity := 2 ^ 63 + 1 } bytesLimit appendTwice⟩

/-- The second append is broken off like the first where appends take no index first, and refused
where they do: the kinds do not answer all calls alike. -/
theorem outcomes_appendTwice :
    2 ^ 63 < maxSize ∧
    (ofStore .fixedSize ⟨#[]⟩ (2 ^ 63) { maxCapacity := 2 ^ 63 + 1 } bytesLimit :
      Strategy {} UInt8).outcomes appendTwice =
        [⟨.overflowed, 2 ^ 63, 0⟩, ⟨.overflowed, 2 ^ 63, 0⟩] ∧
    (ofStore .stampedLock ⟨#[]⟩ (2 ^ 63) { maxCapacity := 2 ^ 63 + 1 } bytesLimit :
      Strategy {} UInt8).outcomes appendTwice =
        [⟨.overflowed, 2 ^ 63, 0⟩,
          ⟨.refused (.capacityOverflow (2 ^ 63 + 2) (2 ^ 63 + 1)), 2 ^ 63, 0⟩] := by
  decide +kernel

end Strategy

end SharedArray

end Growable
