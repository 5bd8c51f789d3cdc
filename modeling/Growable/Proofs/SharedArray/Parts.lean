import Growable.Proofs.Alone
import Growable.SharedArray.Call

/-!
# A store and a length

To a thread by itself an array is no more than a store and the number of elements in it, whatever
keeps threads apart. `Parts.perform` says what a call makes of the two. It holds for any store and
any length, also for a length beyond the end of the store; how an access between the two ends is a
matter of the strategy, and `beyond` stands for it.
-/

namespace Growable.SharedArray

/-! ## The current store of a history -/

namespace Stores

variable {α : Type}

/-- The last store of the history. -/
def Ends (s : Stores α) (st : Store α) : Prop := s.history[s.current]? = some st

theorem ends_single (st : Store α) : (single st).Ends st := rfl

theorem ends_publish (s : Stores α) (st : Store α) : (s.publish st).Ends st := by
  simp [Ends, publish, current]

theorem current_set (s : Stores α) (p i : Nat) (v : α) : (s.set p i v).current = s.current := by
  simp [current, set]

/-- The numbers of slots of all stores there were, the oldest first. -/
def capacities (s : Stores α) : List Nat := s.history.toList.map Store.capacity

theorem length_capacities (s : Stores α) : s.capacities.length = s.history.size := by
  simp [capacities]

theorem capacityOf_eq (s : Stores α) (p : Nat) : s.capacityOf p = s.capacities[p]?.getD 0 := by
  simp [capacityOf, capacities]

theorem capacities_set (s : Stores α) (p i : Nat) (v : α) :
    (s.set p i v).capacities = s.capacities := by
  apply List.ext_getElem?
  intro j
  simp only [capacities, set, List.getElem?_map, Array.getElem?_toList, Array.getElem?_modify]
  split
  · rw [Option.map_map]
    congr 1
    funext st
    exact Store.capacity_set st i v
  · rfl

theorem capacities_publish (s : Stores α) (st : Store α) :
    (s.publish st).capacities = s.capacities ++ [st.capacity] := by
  simp [capacities, publish]

namespace Ends

variable {s : Stores α} {st : Store α}

theorem latest (h : s.Ends st) : s.latest = st := by
  simp only [Ends, current] at h
  simp [Stores.latest, Array.back?_eq_getElem?, h]

theorem capacityOf (h : s.Ends st) : s.capacityOf s.current = st.capacity := by
  simp only [Ends] at h
  simp [Stores.capacityOf, h]

theorem capacity (h : s.Ends st) : s.capacity = st.capacity := h.capacityOf

theorem get? (h : s.Ends st) (i : Nat) : s.get? s.current i = st.get? i := by
  simp only [Ends] at h
  simp [Stores.get?, h]

theorem set (h : s.Ends st) (i : Nat) (v : α) : (s.set s.current i v).Ends (st.set i v) := by
  simp only [Ends] at h
  rw [Ends, current_set]
  simp [Stores.set, Array.getElem?_modify, h]

end Ends

end Stores

/-! ## Calls -/

theorem error_of_capacityFor {current required allowed : Nat} {e : Error}
    (h : capacityFor current required allowed = .error e) :
    allowed < required ∧ e = .capacityOverflow required allowed := by
  unfold capacityFor at h
  split at h
  · rename_i hlt
    cases h
    exact ⟨hlt, rfl⟩
  · cases h

theorem lt_of_capacityFor {current required allowed : Nat} {e : Error}
    (h : capacityFor current required allowed = .error e) : allowed < required :=
  (error_of_capacityFor h).1

/-- A store, and the number of elements in it. -/
structure Parts (α : Type) where
  store : Store α
  length : Nat

namespace Parts

variable {α : Type} [Inhabited α]

/-- The store with room for `required` slots, or the answer to the call that asks for so much. -/
def makeRoom (limits : Limits) (allowed : Nat) (p : Parts α) (required : Nat) :
    Except (Answer α) (Parts α) :=
  if required ≤ p.store.capacity then .ok p
  else
    match capacityFor p.store.capacity required allowed with
    | .error e => .error (.refused e)
    | .ok n =>
      if limits.holds n then .ok { p with store := p.store.grown n } else .error .overflowed

/-- What an access to element `i` comes to. -/
def access (beyond : Access α → Nat → Nat → Answer α) (p : Parts α) (i : Nat) (a : Access α) :
    Parts α × Answer α :=
  if i < p.length then
    match p.store.get? i, a with
    | some old, .load => (p, .value old)
    | some _, .store v => ({ p with store := p.store.set i v }, .done)
    | none, a => (p, beyond a i p.length)
  else (p, .refused (.indexOutOfBounds i p.length))

/-- What an append comes to that finds `taken` indices taken. -/
def append (limits : Limits) (allowed taken : Nat) (p : Parts α) (v : α) : Parts α × Answer α :=
  if taken < allowed then
    match p.makeRoom limits allowed (p.length + 1) with
    | .ok q => (⟨q.store.set p.length v, p.length + 1⟩, .index p.length)
    | .error a => (p, a)
  else (p, .full limits taken allowed)

/-- What a call comes to. -/
def perform (limits : Limits) (allowed taken : Nat) (beyond : Access α → Nat → Nat → Answer α)
    (p : Parts α) : Call α → Parts α × Answer α
  | .append v => p.append limits allowed taken v
  | .read i => p.access beyond i .load
  | .write i v => p.access beyond i (.store v)
  | .ensureCapacity n =>
    match p.makeRoom limits allowed n with
    | .ok q => (q, .done)
    | .error a => (p, a)
  | .toArray => (p, .values (p.store.take p.length))
  | .length => (p, .count p.length)
  | .capacity => (p, .count p.store.capacity)

/-- How room is made: it is there, or is made by growing, or is more than is allowed or than the
machine has. -/
inductive Room (limits : Limits) (allowed : Nat) (p : Parts α) (required : Nat) :
    Except (Answer α) (Parts α) → Prop
  | there : required ≤ p.store.capacity → Room limits allowed p required (.ok p)
  | made {n : Nat} : p.store.capacity < required →
      capacityFor p.store.capacity required allowed = .ok n → limits.holds n = true →
      Room limits allowed p required (.ok { p with store := p.store.grown n })
  | refused {e : Error} : p.store.capacity < required →
      capacityFor p.store.capacity required allowed = .error e →
      Room limits allowed p required (.error (.refused e))
  | overflowed {n : Nat} : p.store.capacity < required →
      capacityFor p.store.capacity required allowed = .ok n → limits.holds n = false →
      Room limits allowed p required (.error .overflowed)

theorem room_makeRoom (limits : Limits) (allowed : Nat) (p : Parts α) (required : Nat) :
    Room limits allowed p required (p.makeRoom limits allowed required) := by
  unfold makeRoom
  split
  · exact .there ‹_›
  · rename_i hroom
    have hlt : p.store.capacity < required := Nat.lt_of_not_le hroom
    split
    · exact .refused hlt ‹_›
    · split
      · exact .made hlt ‹_› ‹_›
      · exact .overflowed hlt ‹_› (Bool.eq_false_iff.mpr ‹_›)

/-- Room was made: enough of it, and nothing else has changed. -/
theorem Room.of_ok {limits : Limits} {allowed required : Nat} {p q : Parts α}
    (h : Room limits allowed p required (.ok q)) :
    required ≤ q.store.capacity ∧ q.length = p.length := by
  cases h with
  | there hroom => exact ⟨hroom, rfl⟩
  | made hlt hn _ =>
    have hle := le_of_capacityFor hn
    refine ⟨?_, rfl⟩
    rw [Store.capacity_grown]
    omega

/-! ## Indices that are taken -/

/-- Where an append takes its index first, `taken` indices are: those of the elements, or, where the
machine has no room for the next element, some more of those that are allowed. -/
def Taken (limits : Limits) (allowed : Nat) (p : Parts α) (taken : Nat) : Prop :=
  taken = p.length ∨
    p.length < taken ∧ taken ≤ allowed ∧ ¬ limits.Admits p.store.capacity (p.length + 1) allowed

/-- The indices that are taken after a call, where an append takes its index first. -/
def takenAfter (allowed taken : Nat) : Call α → Nat
  | .append _ => if taken < allowed then taken + 1 else taken
  | _ => taken

section

variable {limits : Limits} {allowed taken required i : Nat} {p q : Parts α}
  {beyond : Access α → Nat → Nat → Answer α}

omit [Inhabited α] in
theorem Taken.length_le (h : p.Taken limits allowed taken) : p.length ≤ taken := by
  rcases h with rfl | ⟨hlt, -⟩
  · exact Nat.le_refl _
  · exact Nat.le_of_lt hlt

omit [Inhabited α] in
/-- Where there is room for the next element, no other index is taken. -/
theorem Taken.eq_length (h : p.Taken limits allowed taken)
    (hadmits : limits.Admits p.store.capacity (p.length + 1) allowed) : taken = p.length :=
  h.resolve_right fun hmore => hmore.2.2 hadmits

theorem Room.admits (h : Room limits allowed p required (.ok q)) :
    limits.Admits p.store.capacity required allowed := by
  intro hlt n hn
  cases h with
  | there hroom => omega
  | made _ hn' hholds =>
    obtain rfl := Except.ok.inj (hn.symm.trans hn')
    exact hholds

theorem Room.not_admits (h : Room limits allowed p required (.error .overflowed)) :
    ¬ limits.Admits p.store.capacity required allowed := by
  intro hadmits
  cases h with
  | overflowed hlt hn hholds =>
    rw [hadmits hlt _ hn] at hholds
    cases hholds

theorem exists_makeRoom_of_admits (h : limits.Admits p.store.capacity required allowed)
    (hle : required ≤ allowed) : ∃ q, p.makeRoom limits allowed required = .ok q := by
  have hroom := room_makeRoom limits allowed p required
  generalize p.makeRoom limits allowed required = r at hroom
  cases hroom with
  | refused hlt he =>
    have := lt_of_capacityFor he
    omega
  | overflowed hlt hn hholds => exact absurd h (Room.overflowed hlt hn hholds).not_admits
  | _ => exact ⟨_, rfl⟩

theorem makeRoom_of_not_admits (h : ¬ limits.Admits p.store.capacity required allowed) :
    p.makeRoom limits allowed required = .error .overflowed := by
  have hroom := room_makeRoom limits allowed p required
  generalize p.makeRoom limits allowed required = r at hroom
  cases hroom with
  | there hfits => exact absurd (Room.there hfits).admits h
  | made hlt hn hholds => exact absurd (Room.made hlt hn hholds).admits h
  | refused hlt he => exact absurd (fun _ n hn => by rw [he] at hn; cases hn) h
  | overflowed => rfl

/-- Where no room can be made for the next element, none can be made for an element behind it. -/
theorem Taken.error {a : Answer α} (h : p.Taken limits allowed taken) (hlt : taken < allowed)
    (ha : p.makeRoom limits allowed (p.length + 1) = .error a) :
    p.store.capacity ≤ taken ∧ p.makeRoom limits allowed (taken + 1) = .error a := by
  have hle := h.length_le
  have hroom := room_makeRoom limits allowed p (p.length + 1)
  rw [ha] at hroom
  cases hroom with
  | refused _ he =>
    have := lt_of_capacityFor he
    omega
  | overflowed hfull hn hholds =>
    have hnot := (Room.overflowed hfull hn hholds).not_admits
    refine ⟨by omega, makeRoom_of_not_admits fun hadmits => hnot ?_⟩
    exact hadmits.mono (Nat.succ_le_succ hle) hlt

/-- Room that was made for something else does not make room for the next element. -/
theorem Taken.room (h : p.Taken limits allowed taken)
    (hroom : Room limits allowed p required (.ok q)) : q.Taken limits allowed taken := by
  cases hroom with
  | there => exact h
  | made hlt hn hholds =>
    have hle := (le_of_capacityFor hn).1
    refine h.imp id fun hmore => ⟨hmore.1, hmore.2.1, fun hadmits => hmore.2.2 ?_⟩
    rw [Store.capacity_grown, Nat.max_eq_left (by omega)] at hadmits
    exact hadmits.of_grown hn hholds

omit [Inhabited α] in
theorem access_fst (beyond : Access α → Nat → Nat → Answer α) (p : Parts α) (i : Nat)
    (a : Access α) : (p.access beyond i a).1.length = p.length ∧
      (p.access beyond i a).1.store.capacity = p.store.capacity := by
  unfold access
  split
  · split
    · exact ⟨rfl, rfl⟩
    · exact ⟨rfl, Store.capacity_set ..⟩
    · exact ⟨rfl, rfl⟩
  · exact ⟨rfl, rfl⟩

omit [Inhabited α] in
theorem Taken.access (h : p.Taken limits allowed taken) (i : Nat) (a : Access α) :
    (p.access beyond i a).1.Taken limits allowed taken := by
  obtain ⟨hlength, hcapacity⟩ := access_fst beyond p i a
  unfold Taken
  rw [hlength, hcapacity]
  exact h

theorem Taken.append (h : p.Taken limits allowed taken) (v : α) :
    (p.append limits allowed taken v).1.Taken limits allowed
      (takenAfter allowed taken (.append v)) := by
  unfold Parts.append takenAfter
  dsimp only
  split
  · rename_i hlt
    have hroom := room_makeRoom limits allowed p (p.length + 1)
    generalize p.makeRoom limits allowed (p.length + 1) = r at hroom
    cases hroom with
    | there hfits => exact .inl (congrArg (· + 1) (h.eq_length (Room.there hfits).admits))
    | made hlt hn hholds =>
      exact .inl (congrArg (· + 1) (h.eq_length (Room.made hlt hn hholds).admits))
    | refused _ he =>
      have := lt_of_capacityFor he
      have := h.length_le
      omega
    | overflowed hlt' hn hholds =>
      have hle := h.length_le
      exact .inr ⟨show p.length < taken + 1 by omega, hlt,
        (Room.overflowed hlt' hn hholds).not_admits⟩
  · exact h

/-- Which indices are taken is kept by every call. -/
theorem Taken.perform (h : p.Taken limits allowed taken) (beyond : Access α → Nat → Nat → Answer α)
    (c : Call α) :
    (p.perform limits allowed taken beyond c).1.Taken limits allowed
      (takenAfter allowed taken c) := by
  cases c with
  | append v => exact h.append v
  | read i => exact h.access i .load
  | write i v => exact h.access i (.store v)
  | ensureCapacity n =>
    have hroom := room_makeRoom limits allowed p n
    simp only [Parts.perform]
    generalize p.makeRoom limits allowed n = r at hroom
    cases r with
    | ok q => exact h.room hroom
    | error a => exact h
  | toArray | length | capacity => exact h

end

end Parts

/-! ## Slot by slot -/

/-- A thread by itself that loads values one after the other into a buffer ends up with all of
them. -/
theorem goes_scan {α σ τ κ ρ : Type} (m : Machine σ τ κ ρ) (me : Nat) (s : σ)
    (values : Array α) (f : Array α → τ) (last : τ) (hrest : ∀ b, m.rests (f b) = false)
    (hnext : ∀ k (h : k < values.size), m.step me true s (f (values.extract 0 k)) =
      (s, f ((values.extract 0 k).push values[k])))
    (hend : m.step me true s (f values) = (s, last)) :
    m.Goes me (values.size + 1) (s, f #[]) (s, last) := by
  have hfrom : ∀ j k, k + j = values.size →
      m.Goes me (j + 1) (s, f (values.extract 0 k)) (s, last) := by
    intro j
    induction j with
    | zero =>
      intro k hk
      have hall : values.extract 0 k = values := by
        rw [show k = values.size by omega]
        exact Array.extract_size
      rw [hall]
      exact .one (hrest _) hend
    | succ j ih =>
      intro k hk
      have hlt : k < values.size := by omega
      have hpush : (values.extract 0 k).push values[k] = values.extract 0 (k + 1) := by simp
      refine .step (hrest _) ?_
      rw [hnext k hlt, hpush]
      exact ih (k + 1) (by omega)
  have hall := hfrom values.size 0 (by omega)
  simpa using hall

end Growable.SharedArray
