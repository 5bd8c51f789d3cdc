import Growable.Proofs.SharedArray.Parts
import Growable.SharedArray.Unguarded

/-!
# An unguarded array by itself

For one thread at a time the loads and stores of an unguarded array come to what `Parts.perform`
says. An access to a slot the store does not have is refused like one beyond the length. A growth puts
the store it replaces on the list, and no other call changes the list.
-/

namespace Growable.SharedArray.Unguarded

variable {α : Type} [Inhabited α]

/-- What the array is to a thread by itself. Nobody is at the list of replaced stores. -/
structure Holds (s : Shared α) (limits : Limits) (allowed : Nat) (p : Parts α) : Prop where
  ends : s.stores.Ends p.store
  length : s.length = p.length
  list : s.listTaken = false
  allowed : s.maxCapacity = allowed
  limits : s.limits = limits

/-- What a call by itself does to the stores and to the list of those that were replaced: nothing, or
the current store is put on the list for a larger one. -/
inductive Retires (s s' : Shared α) : Prop
  | none : s'.stores.capacities = s.stores.capacities → s'.replaced = s.replaced → Retires s s'
  | one {required n : Nat} : s.stores.capacity < required →
      capacityFor s.stores.capacity required s.maxCapacity = .ok n →
      s'.stores.capacities = s.stores.capacities ++ [n] →
      s'.replaced = s.stores.current :: s.replaced → Retires s s'

/-- An access past the end of the store is refused. -/
def beyond (_ : Access α) (i len : Nat) : Answer α := .refused (.indexOutOfBounds i len)

variable {s s' s'' : Shared α} {limits : Limits} {allowed : Nat} {p : Parts α}

omit [Inhabited α] in
theorem retires_refl (s : Shared α) : Retires s s := .none rfl rfl

omit [Inhabited α] in
theorem Retires.of_eq (h : Retires s s') (hcapacities : s''.stores.capacities = s'.stores.capacities)
    (hreplaced : s''.replaced = s'.replaced) : Retires s s'' := by
  cases h with
  | none hsame hlist => exact .none (hcapacities.trans hsame) (hreplaced.trans hlist)
  | one hlt hn hadded hlist => exact .one hlt hn (hcapacities.trans hadded) (hreplaced.trans hlist)

theorem goes_copy {st : Store α} (h : s.stores.Ends st) (g : Growth α) (target : Nat) :
    (machine α).Goes 0 (st.capacity + 1) (s, .copy g s.stores.current target #[])
      (s, .publish g target st.slots) := by
  refine goes_scan _ _ _ st.slots (fun b => Task.copy g s.stores.current target b) _ (fun _ => rfl)
    ?_ ?_
  · intro k hk
    have hsize : (st.slots.extract 0 k).size = k := by simp; omega
    simp [machine, step, h.get?, hsize, Store.get?, hk]
  · simp [machine, step, h.get?, Store.get?]

/-- A growth that is possible makes room and keeps the rest. -/
theorem goes_grow {q : Parts α} (h : Holds s limits allowed p) (g : Growth α)
    (hq : p.makeRoom limits allowed g.required = .ok q) :
    ∃ s', (machine α).Goes 0 (p.store.capacity + 7) (s, .growPointer g) (s', .afterGrowth g) ∧
      Holds s' limits allowed q ∧ Retires s s' := by
  have hroom := Parts.room_makeRoom limits allowed p g.required
  rw [hq] at hroom
  cases hroom with
  | there hfits =>
    refine ⟨s, (Machine.Goes.one rfl ?_).mono (by omega), h, retires_refl s⟩
    simp [machine, step, h.ends.capacity, hfits]
  | @made n hlt hn hholds =>
    let s₁ : Shared α := { s with journal := .growing p.store.capacity n :: s.journal }
    let s₂ : Shared α := { s₁ with stores := s.stores.publish (p.store.grown n) }
    let s₃ : Shared α := { s₂ with listTaken := true }
    let s₄ : Shared α := { s₃ with replaced := s.stores.current :: s.replaced }
    have hstart : (machine α).Goes 0 1 (s, .growPointer g)
        (s₁, .copy g s.stores.current n #[]) := by
      refine .one rfl ?_
      simp [machine, step, h.ends.capacity, Nat.not_le.mpr hlt, h.allowed, hn, h.limits, hholds, s₁]
    have hcopy : (machine α).Goes 0 (p.store.capacity + 1)
        (s₁, .copy g s.stores.current n #[]) (s₁, .publish g n p.store.slots) :=
      goes_copy (s := s₁) h.ends g n
    have hpublish : (machine α).Goes 0 1 (s₁, .publish g n p.store.slots)
        (s₂, .listEnter g s.stores.current .out) := .one rfl rfl
    have hlist : (machine α).Goes 0 4 (s₂, .listEnter g s.stores.current .out)
        ({ s₄ with listTaken := false }, .afterGrowth g) := by
      have hlook : (machine α).step 0 true s₂ (.listEnter g s.stores.current .out) =
          (s₂, .listEnter g s.stores.current .swap) := by
        simp [machine, step, Lock.Spin.seek, s₂, s₁, h.list]
      have hswap : (machine α).step 0 true s₂ (.listEnter g s.stores.current .swap) =
          (s₃, .listPush g s.stores.current) := by
        simp [machine, step, Lock.Spin.seek, s₃, s₂, s₁, h.list]
      refine .step rfl ?_
      rw [hlook]
      refine .step rfl ?_
      rw [hswap]
      exact .step rfl (.step rfl (.refl _ _))
    refine ⟨{ s₄ with listTaken := false },
      (((hstart.trans hcopy).trans hpublish).trans hlist).mono (by omega),
      ⟨Stores.ends_publish _ _, h.length, rfl, h.allowed, h.limits⟩, ?_⟩
    have hle := le_of_capacityFor hn
    rw [← h.ends.capacity, ← h.allowed] at hn
    refine .one (by rw [h.ends.capacity]; exact hlt) hn ?_ rfl
    rw [Stores.capacities_publish, Store.capacity_grown, Nat.max_eq_left (by omega)]

/-- A growth that is not possible is given up, with no more than a record of it. -/
theorem goes_grow_error {a : Answer α} (h : Holds s limits allowed p) (g : Growth α)
    (ha : p.makeRoom limits allowed g.required = .error a) :
    ∃ s', (machine α).Goes 0 1 (s, .growPointer g) (s', .answer a) ∧ Holds s' limits allowed p ∧
      Retires s s' := by
  have hroom := Parts.room_makeRoom limits allowed p g.required
  rw [ha] at hroom
  cases hroom with
  | refused hlt he =>
    refine ⟨s, .one rfl ?_, h, retires_refl s⟩
    simp [machine, step, h.ends.capacity, Nat.not_le.mpr hlt, h.allowed, he]
  | @overflowed n hlt hn hholds =>
    refine ⟨{ s with journal := .growing p.store.capacity n :: s.journal }, .one rfl ?_,
      ⟨h.ends, h.length, h.list, h.allowed, h.limits⟩, .none rfl rfl⟩
    simp [machine, step, h.ends.capacity, Nat.not_le.mpr hlt, h.allowed, hn, h.limits, hholds]

theorem goes_append (h : Holds s limits allowed p) (v : α) :
    ∃ s', (machine α).Goes 0 (p.store.capacity + 16) (s, .placeLength v)
      (s', .answer (p.append limits allowed p.length v).2) ∧
      Holds s' limits allowed (p.append limits allowed p.length v).1 ∧ Retires s s' := by
  unfold Parts.append
  by_cases hlt : p.length < allowed
  · have hlook : (machine α).Goes 0 2 (s, .placeLength v)
        (s, .placeSlot p.length v s.stores.current) := by
      refine .step rfl (.one ?_ ?_)
      · simp [machine, step, h.length, h.allowed, hlt, Task.rests]
      · simp [machine, step, h.length, h.allowed, hlt]
    rw [if_pos hlt]
    by_cases hroom : p.length < p.store.capacity
    · simp only [Parts.makeRoom, Nat.succ_le_of_lt hroom, if_true]
      refine ⟨{ s with stores := s.stores.set s.stores.current p.length v, length := p.length + 1 },
        ((hlook.trans (.step rfl (.one ?_ ?_))).mono (by omega : 2 + (1 + 1) ≤ _)), ?_⟩
      · simp [machine, step, h.ends.capacityOf, hroom, Task.rests]
      · simp [machine, step, h.ends.capacityOf, hroom]
      · exact ⟨⟨h.ends.set _ _, rfl, h.list, h.allowed, h.limits⟩,
          .none (Stores.capacities_set ..) rfl⟩
    · have hfull : (machine α).Goes 0 1 (s, .placeSlot p.length v s.stores.current)
          (s, .growPointer (.fit p.length v)) := by
        refine .one rfl ?_
        simp [machine, step, h.ends.capacityOf, hroom]
      cases hq : p.makeRoom limits allowed (p.length + 1) with
      | ok q =>
        obtain ⟨s', hgrow, h', hretires⟩ := goes_grow h (.fit p.length v) hq
        have hfit : (machine α).Goes 0 3 (s', .afterGrowth (.fit p.length v))
            ({ s' with
                stores := s'.stores.set s'.stores.current p.length v, length := p.length + 1 },
              .answer (.index p.length)) :=
          .step rfl (.step rfl (.one rfl rfl))
        refine ⟨_, (((hlook.trans hfull).trans hgrow).trans hfit).mono (by omega), ?_⟩
        exact ⟨⟨h'.ends.set _ _, rfl, h'.list, h'.allowed, h'.limits⟩,
          hretires.of_eq (Stores.capacities_set ..) rfl⟩
      | error a =>
        obtain ⟨s', hgrow, h'⟩ := goes_grow_error h (.fit p.length v) hq
        exact ⟨s', ((hlook.trans hfull).trans hgrow).mono (by omega), h'⟩
  · rw [if_neg hlt]
    refine ⟨s, (Machine.Goes.one rfl ?_).mono (by omega), h, retires_refl s⟩
    simp [machine, step, h.length, h.allowed, h.limits, hlt]

theorem goes_access (h : Holds s limits allowed p) (i : Nat) (a : Access α) :
    ∃ s', (machine α).Goes 0 3 (s, .accessLength i a)
      (s', .answer (p.access beyond i a).2) ∧ Holds s' limits allowed (p.access beyond i a).1 ∧
      Retires s s' := by
  by_cases hlt : i < p.length
  · have hlook : (machine α).Goes 0 2 (s, .accessLength i a)
        (s, .accessSlot i a p.length s.stores.current) := by
      refine .step rfl (.one ?_ ?_)
      · simp [machine, step, h.length, checkBounds, hlt, Task.rests]
      · simp [machine, step, h.length, checkBounds, hlt]
    cases hget : p.store.get? i with
    | none =>
      refine ⟨s, (hlook.trans (.one rfl ?_)), ?_, retires_refl s⟩
      · simp [machine, step, Access.perform, h.ends.get?, hget, Parts.access, hlt, beyond]
      · simpa [Parts.access, hlt, hget] using h
    | some old =>
      cases a with
      | load =>
        refine ⟨s, (hlook.trans (.one rfl ?_)), ?_, retires_refl s⟩
        · simp [machine, step, Access.perform, h.ends.get?, hget, Parts.access, hlt]
        · simpa [Parts.access, hlt, hget] using h
      | store v =>
        refine ⟨{ s with stores := s.stores.set s.stores.current i v },
          (hlook.trans (.one rfl ?_)), ?_, .none (Stores.capacities_set ..) rfl⟩
        · simp [machine, step, Access.perform, h.ends.get?, hget, Parts.access, hlt]
        · simp only [Parts.access, if_pos hlt, hget]
          exact ⟨h.ends.set _ _, h.length, h.list, h.allowed, h.limits⟩
  · refine ⟨s, (Machine.Goes.one rfl ?_).mono (by omega), ?_, retires_refl s⟩
    · simp [machine, step, h.length, checkBounds, hlt, Parts.access]
    · simpa [Parts.access, hlt] using h

theorem goes_collect (h : Holds s limits allowed p) :
    (machine α).Goes 0 (p.store.capacity + 3) (s, .collectPointer)
      (s, .answer (.values (p.store.take p.length))) := by
  have hsize : (p.store.take p.length).size = min p.length p.store.capacity := by
    simp [Store.take, Store.capacity]
  have hlook : (machine α).Goes 0 2 (s, .collectPointer)
      (s, .collect s.stores.current (min p.length p.store.capacity) #[]) := by
    refine .step rfl (.one rfl ?_)
    simp [machine, step, h.length, h.ends.capacityOf]
  have hscan := goes_scan (machine α) 0 s (p.store.take p.length)
    (fun b => Task.collect s.stores.current (min p.length p.store.capacity) b)
    (.answer (.values (p.store.take p.length))) (fun _ => rfl) ?_ ?_
  · exact (hlook.trans hscan).mono (by omega)
  · intro k hk
    have hk' : k < min p.length p.store.capacity := hsize ▸ hk
    have hsize' : ((p.store.take p.length).extract 0 k).size = k := by simp; omega
    have hget : p.store.get? k = some (p.store.take p.length)[k] := by
      simp [Store.get?, Store.take]
    simp only [machine, step, hsize', h.ends.get?, hget, if_pos hk']
  · simp [machine, step, hsize]

/-- A call by itself on an unguarded array. -/
theorem perform_spec (h : Holds s limits allowed p) (c : Call α) (t : Task α) :
    ∃ s', (machine α).perform 0 (fuel s) c s t =
        (s', .answer (p.perform limits allowed p.length beyond c).2) ∧
      Holds s' limits allowed (p.perform limits allowed p.length beyond c).1 ∧ Retires s s' := by
  have hfuel : fuel s = 32 + p.store.capacity := by rw [fuel, h.ends.capacity]
  have hgo : ∀ {n : Nat} {s' : Shared α} {a : Answer α},
      (machine α).Goes 0 n (s, .ofCall c) (s', .answer a) → n ≤ 32 + p.store.capacity →
      (machine α).perform 0 (fuel s) c s t = (s', .answer a) :=
    fun hgoes hn => Machine.perform_of_goes hgoes rfl (hfuel ▸ hn)
  cases c with
  | append v =>
    obtain ⟨s', hgoes, h', hretires⟩ := goes_append h v
    exact ⟨s', hgo hgoes (by omega), h', hretires⟩
  | read i =>
    obtain ⟨s', hgoes, h', hretires⟩ := goes_access h i .load
    exact ⟨s', hgo hgoes (by omega), h', hretires⟩
  | write i v =>
    obtain ⟨s', hgoes, h', hretires⟩ := goes_access h i (.store v)
    exact ⟨s', hgo hgoes (by omega), h', hretires⟩
  | ensureCapacity n =>
    cases hq : p.makeRoom limits allowed n with
    | ok q =>
      obtain ⟨s', hgoes, h', hretires⟩ := goes_grow h (.reserve n) hq
      simp only [Parts.perform, hq]
      exact ⟨s', hgo hgoes (by omega), h', hretires⟩
    | error a =>
      obtain ⟨s', hgoes, h', hretires⟩ := goes_grow_error h (.reserve n) hq
      simp only [Parts.perform, hq]
      exact ⟨s', hgo hgoes (by omega), h', hretires⟩
  | toArray => exact ⟨s, hgo (goes_collect h) (by omega), h, retires_refl s⟩
  | length =>
    refine ⟨s, hgo (.one rfl ?_) (by omega : 1 ≤ _), h, retires_refl s⟩
    simp [machine, step, h.length, Parts.perform, Task.ofCall]
  | capacity =>
    refine ⟨s, hgo (.one rfl ?_) (by omega : 1 ≤ _), h, retires_refl s⟩
    simp [machine, step, h.ends.capacity, Parts.perform, Task.ofCall]

omit [Inhabited α] in
theorem holds_ofStore (p : Parts α) (config : Config) (limits : Limits) :
    Holds (ofStore p.store p.length config limits) limits config.maxCapacity p :=
  ⟨Stores.ends_single _, rfl, rfl, rfl, rfl⟩

omit [Inhabited α] in
theorem Holds.reclaim (h : Holds s limits allowed p) :
    Holds (reclaim s).1 limits allowed p :=
  ⟨h.ends, h.length, h.list, h.allowed, h.limits⟩

end Growable.SharedArray.Unguarded
