import Growable.Proofs.SharedArray.Bare
import Mathlib.Algebra.GroupWithZero.Nat

/-!
# Replaced stores that are kept

An unguarded array keeps the stores it replaced until its owner gives them back. They are never much:
a store is replaced by one of at least twice its size, so all that were replaced are together smaller
than the current one. Only the growth to all that is allowed may fall short of that, and after it
there is no other. How many there are is seen from outside: one for each call that has made the
capacity larger since they were last given back.
-/

namespace Growable.SharedArray

namespace Stores

variable {α : Type} {s s' : Stores α} {n m : Nat}

theorem capacity_congr (h : s'.capacities = s.capacities) : s'.capacity = s.capacity := by
  rw [capacity, capacity, current, current, ← s'.length_capacities, ← s.length_capacities, h,
    capacityOf_eq, capacityOf_eq, h]

theorem size_of_capacities (h : s'.capacities = s.capacities ++ [n]) :
    s'.history.size = s.history.size + 1 := by
  rw [← s'.length_capacities, h, List.length_append, s.length_capacities, List.length_singleton]

/-- A store that was added last is the current one. -/
theorem capacity_of_capacities (h : s'.capacities = s.capacities ++ [n]) : s'.capacity = n := by
  rw [capacity, current, size_of_capacities h, Nat.add_sub_cancel, capacityOf_eq, h,
    ← s.length_capacities, List.getElem?_concat_length]
  rfl

theorem capacityOf_of_capacities (h : s'.capacities = s.capacities ++ [n])
    (hm : m < s.history.size) : s'.capacityOf m = s.capacityOf m := by
  rw [← s.length_capacities] at hm
  rw [capacityOf_eq, h, List.getElem?_append_left hm, capacityOf_eq]

theorem Ends.current_lt {st : Store α} (h : s.Ends st) : s.current < s.history.size :=
  (Array.getElem?_eq_some_iff.mp h).1

end Stores

namespace Unguarded

variable {α : Type} {s s' : Shared α} {limits : Limits} {allowed grown : Nat} {p : Parts α}

/-! ## What a call adds -/

/-- The numbers of slots of the stores on the list, the latest first. -/
def Shared.retired (s : Shared α) : List Nat := s.replaced.map s.stores.capacityOf

/-- What is so of the list of replaced stores: there is one for each growth since it was empty, and
together they are smaller than the current one, or than twice that once all that is allowed is
taken. -/
structure Thrifty (allowed grown : Nat) (s : Shared α) : Prop where
  named : ∀ n ∈ s.replaced, n < s.stores.history.size
  count : s.replaced.length = grown
  le_allowed : s.replaced ≠ [] → s.stores.capacity ≤ allowed
  twice : s.replaced ≠ [] → s.retired.sum < 2 * s.stores.capacity
  once : s.replaced ≠ [] → s.stores.capacity < allowed → s.retired.sum < s.stores.capacity

theorem thrifty_nil (h : s.replaced = []) : Thrifty allowed 0 s := by
  refine ⟨?_, congrArg List.length h, absurd h, absurd h, absurd h⟩
  intro n hn
  rw [h] at hn
  cases hn

/-- A growth that does not take all that is allowed at least doubles. -/
theorem double_of_capacityFor {current required allowed n : Nat} (hmax : allowed ≤ maxSize)
    (h : capacityFor current required allowed = .ok n) (hn : n < allowed) : 2 * current ≤ n := by
  unfold capacityFor at h
  split at h
  · cases h
  · obtain rfl := Except.ok.inj h
    omega

theorem Thrifty.of_same (h : Thrifty allowed grown s)
    (hsame : s'.stores.capacities = s.stores.capacities) (hlist : s'.replaced = s.replaced) :
    Thrifty allowed grown s' := by
  have hcapacity := Stores.capacity_congr hsame
  have hretired : s'.retired = s.retired := by
    rw [Shared.retired, Shared.retired, hlist]
    refine List.map_congr_left fun n _ => ?_
    rw [Stores.capacityOf_eq, hsame, Stores.capacityOf_eq]
  refine ⟨?_, hlist ▸ h.count, ?_, ?_, ?_⟩
  · rw [hlist, ← s'.stores.length_capacities, hsame, s.stores.length_capacities]
    exact h.named
  · rw [hlist, hcapacity]
    exact h.le_allowed
  · rw [hlist, hcapacity, hretired]
    exact h.twice
  · rw [hlist, hcapacity, hretired]
    exact h.once

/-- Before a growth there is less than all that is allowed, so the stores on the list are together
smaller than the one that is put there besides. -/
theorem Thrifty.of_growth (hmax : allowed ≤ maxSize) (h : Thrifty allowed grown s)
    (hlive : s.stores.current < s.stores.history.size) {required n : Nat}
    (hlt : s.stores.capacity < required)
    (hn : capacityFor s.stores.capacity required allowed = .ok n)
    (hadded : s'.stores.capacities = s.stores.capacities ++ [n])
    (hlist : s'.replaced = s.stores.current :: s.replaced) : Thrifty allowed (grown + 1) s' := by
  have hcapacity := Stores.capacity_of_capacities hadded
  have hsize := Stores.size_of_capacities hadded
  obtain ⟨hrequired, hle⟩ := le_of_capacityFor hn
  have hdouble := double_of_capacityFor hmax hn
  have hretired : s'.retired = s.stores.capacity :: s.retired := by
    rw [Shared.retired, hlist, List.map_cons, Stores.capacityOf_of_capacities hadded hlive]
    refine congrArg _ (List.map_congr_left fun m hm => ?_)
    exact Stores.capacityOf_of_capacities hadded (h.named m hm)
  have hsum : s.retired.sum = 0 ∨ s.retired.sum < s.stores.capacity := by
    by_cases hnil : s.replaced = []
    · left
      rw [Shared.retired, hnil]
      rfl
    · exact .inr (h.once hnil (by omega))
  refine ⟨?_, ?_, fun _ => hcapacity ▸ hle, fun _ => ?_, fun _ hroom => ?_⟩
  · intro m hm
    rw [hlist] at hm
    rcases List.mem_cons.mp hm with rfl | hold
    · omega
    · have := h.named m hold
      omega
  · rw [hlist, List.length_cons, h.count]
  · rw [hretired, List.sum_cons, hcapacity]
    omega
  · rw [hcapacity] at hroom
    have := hdouble hroom
    rw [hretired, List.sum_cons, hcapacity]
    omega

/-- A call that makes the capacity larger puts a store on the list, and no other does. -/
theorem Thrifty.retire (hmax : allowed ≤ maxSize) (hholds : Holds s limits allowed p)
    (h : Thrifty allowed grown s) (hretires : Retires s s') :
    Thrifty allowed (if s.stores.capacity < s'.stores.capacity then grown + 1 else grown) s' := by
  cases hretires with
  | none hsame hlist =>
    rw [Stores.capacity_congr hsame, if_neg (Nat.lt_irrefl _)]
    exact h.of_same hsame hlist
  | one hlt hn hadded hlist =>
    rw [hholds.allowed] at hn
    rw [Stores.capacity_of_capacities hadded,
      if_pos (Nat.lt_of_lt_of_le hlt (le_of_capacityFor hn).1)]
    exact h.of_growth hmax hholds.ends.current_lt hlt hn hadded hlist

end Unguarded

/-! ## Uses one after the other -/

namespace Strategy

open Lock (Monitors)

variable {L : Monitors} {α : Type} [Inhabited α] {limits : Limits}

/-- The numbers of slots of the replaced stores that are kept, the latest first. -/
def retired : Strategy L α → List Nat
  | unguarded s => s.retired
  | monitored .. | gated .. => []

/-- How many calls have made the capacity larger since replaced stores were given back last, if `n`
had before. -/
def growths (s : Strategy L α) (n : Nat) : List (Use α) → Nat
  | [] => n
  | .reclaim :: us => s.reclaim.1.growths 0 us
  | .call c :: us =>
    let next := (s.perform c).1
    next.growths (if s.capacity < next.capacity then n + 1 else n) us

/-- What is promised of the replaced stores that a strategy keeps, if `grown` calls have made the
capacity larger since they were given back last. -/
structure Frugal (allowed grown : Nat) (s : Strategy L α) : Prop where
  /-- If there are any they are together smaller than twice the current store, -/
  twice : s.retired ≠ [] → s.retired.sum < 2 * s.capacity
  /-- and smaller than the current store as long as it has less than all that is allowed. -/
  once : s.retired ≠ [] → s.capacity < allowed → s.retired.sum < s.capacity
  /-- There is one for each growth, and each is given back once. -/
  returned : s.retired.length = grown ∧ s.reclaim.2 = grown
  again : s.reclaim.1.retired = [] ∧ s.reclaim.1.reclaim.2 = 0
  /-- That changes nothing else, -/
  kept : s.reclaim.1.store = s.store ∧ s.reclaim.1.length = s.length ∧
    s.reclaim.1.capacity = s.capacity
  /-- and nothing that is seen later on. -/
  unseen : ∀ us, s.reclaim.1.outcomes us = s.outcomes us

/-- Each use leaves the list of replaced stores as it is to be. -/
theorem exists_thrifty {allowed n : Nat} (hmax : allowed ≤ maxSize) (us : List (Use α))
    {s : Unguarded.Shared α} {p : Parts α} (hholds : Unguarded.Holds s limits allowed p)
    (hthrifty : Unguarded.Thrifty allowed n s) :
    ∃ s' p', (unguarded s : Strategy L α).after us = unguarded s' ∧
      Unguarded.Holds s' limits allowed p' ∧
      Unguarded.Thrifty allowed ((unguarded s : Strategy L α).growths n us) s' := by
  induction us generalizing s p n with
  | nil => exact ⟨s, p, rfl, hholds, hthrifty⟩
  | cons u us ih =>
    cases u with
    | reclaim => exact ih hholds.reclaim (Unguarded.thrifty_nil rfl)
    | call c =>
      obtain ⟨s', hperform, hholds', hretires⟩ := Unguarded.perform_spec hholds c (.rest none)
      have hnext : ((unguarded s : Strategy L α).perform c).1 = unguarded s' := by
        simp only [perform, hperform]
      have hthrifty' := hthrifty.retire hmax hholds hretires
      obtain ⟨s'', p'', hafter, hend⟩ := ih hholds' hthrifty'
      refine ⟨s'', p'', ?_, hend.1, ?_⟩
      · rw [← hafter, ← hnext]
        rfl
      · rw [growths, hnext]
        exact hend.2

/-- What is seen of an unguarded array hangs on the current store and the length alone. -/
theorem outcomes_unguarded {allowed : Nat} (us : List (Use α)) {s s' : Unguarded.Shared α}
    {p : Parts α} (h : Unguarded.Holds s limits allowed p)
    (h' : Unguarded.Holds s' limits allowed p) :
    (unguarded s' : Strategy L α).outcomes us = (unguarded s : Strategy L α).outcomes us := by
  induction us generalizing s s' p with
  | nil => rfl
  | cons u us ih =>
    obtain ⟨a, s₁, s₂, q, hs₁, hs₂, h₁, h₂⟩ : ∃ a s₁ s₂ q,
        (unguarded s : Strategy L α).use u = (unguarded s₁, a) ∧
        (unguarded s' : Strategy L α).use u = (unguarded s₂, a) ∧
        Unguarded.Holds s₁ limits allowed q ∧ Unguarded.Holds s₂ limits allowed q := by
      cases u with
      | reclaim => exact ⟨_, _, _, p, rfl, rfl, h.reclaim, h'.reclaim⟩
      | call c =>
        obtain ⟨s₁, hs₁, h₁, -⟩ := Unguarded.perform_spec h c (.rest none)
        obtain ⟨s₂, hs₂, h₂, -⟩ := Unguarded.perform_spec h' c (.rest none)
        refine ⟨(p.perform limits allowed p.length Unguarded.beyond c).2, s₁, s₂, _, ?_, ?_, h₁,
          h₂⟩
        · simp only [use, perform, hs₁]
          rfl
        · simp only [use, perform, hs₂]
          rfl
    have hlength : (unguarded s₂ : Strategy L α).length = (unguarded s₁ : Strategy L α).length :=
      h₂.length.trans h₁.length.symm
    have hcapacity :
        (unguarded s₂ : Strategy L α).capacity = (unguarded s₁ : Strategy L α).capacity :=
      h₂.ends.capacity.trans h₁.ends.capacity.symm
    simp only [outcomes, hs₁, hs₂, hlength, hcapacity, ih h₁ h₂]

/-- However an unguarded array is used by one thread, around whatever store and length, it is frugal
with the stores it replaces. -/
theorem frugal_after (store : Store α) (len : Nat) (config : Config) (limits : Limits)
    (hmax : config.maxCapacity ≤ maxSize) (us : List (Use α)) :
    Frugal config.maxCapacity
      ((ofStore .fixedSize store len config limits : Strategy L α).growths 0 us)
      ((ofStore .fixedSize store len config limits : Strategy L α).after us) := by
  obtain ⟨s, p, hafter, hholds, hthrifty⟩ := exists_thrifty (L := L) hmax us
    (Unguarded.holds_ofStore ⟨store, len⟩ config limits) (Unguarded.thrifty_nil rfl)
  change (ofStore .fixedSize store len config limits : Strategy L α).after us =
    unguarded s at hafter
  change Unguarded.Thrifty _
    ((ofStore .fixedSize store len config limits : Strategy L α).growths 0 us) s at hthrifty
  rw [hafter]
  refine ⟨?_, ?_, ⟨?_, hthrifty.count⟩, ⟨rfl, rfl⟩, ⟨rfl, rfl, rfl⟩, ?_⟩
  · intro hnonempty
    exact hthrifty.twice fun hnil => hnonempty (congrArg (List.map _) hnil)
  · intro hnonempty
    exact hthrifty.once fun hnil => hnonempty (congrArg (List.map _) hnil)
  · exact (List.length_map _).trans hthrifty.count
  · exact fun us => outcomes_unguarded us hholds hholds.reclaim

/-- Uses that make an array without slots grow three times, at last to all that is allowed. -/
def toTheLimit : List (Use Nat) :=
  [.call (.append 7), .call (.ensureCapacity 17), .call (.write 0 8), .call (.ensureCapacity 33)]

/-- An array without slots, of which forty are allowed. -/
def slotless : Strategy {} Nat :=
  .ofStore .fixedSize ⟨#[]⟩ 0 { maxCapacity := 40 }

theorem frugal_after_toTheLimit :
    ({ maxCapacity := 40 } : Config).maxCapacity ≤ maxSize ∧
    (slotless.after toTheLimit).retired = [32, 16, 0] ∧
    (slotless.after toTheLimit).capacity = 40 ∧
    (slotless.after toTheLimit).reclaim.2 = 3 ∧
    Frugal 40 (slotless.growths 0 toTheLimit) (slotless.after toTheLimit) :=
  ⟨by decide, by decide +kernel, by decide +kernel, by decide +kernel,
    frugal_after ⟨#[]⟩ 0 { maxCapacity := 40 } {} (by decide) toTheLimit⟩

end Strategy

end Growable.SharedArray
