import Growable.Proofs.SharedArray.Unguarded.Steps
import Mathlib.Data.List.Nodup

/-!
# Where the stores of an unguarded array are

Threads that grow an unguarded array at once replace one another's stores. Still no store gets lost,
for it is swapped out and in by one step: the thread that makes its own store current is handed the
name of the one it replaced, whichever that is, and has it alone until it is on the list. So every
store there ever was is in one place, and a thread that loaded its name finds it there.
-/

namespace Growable.SharedArray

namespace Stores

variable {α : Type} {s s' s'' : Stores α}

/-- Stores may have been added, and none has lost or gained slots. -/
structure Extends (s s' : Stores α) : Prop where
  size_le : s.history.size ≤ s'.history.size
  capacityOf : ∀ n < s.history.size, s'.capacityOf n = s.capacityOf n

theorem extends_refl (s : Stores α) : s.Extends s := ⟨Nat.le_refl _, fun _ _ => rfl⟩

theorem Extends.trans (h : s.Extends s') (h' : s'.Extends s'') : s.Extends s'' := by
  refine ⟨Nat.le_trans h.size_le h'.size_le, fun n hn => ?_⟩
  rw [h'.capacityOf n (Nat.lt_of_lt_of_le hn h.size_le), h.capacityOf n hn]

theorem extends_set (s : Stores α) (p i : Nat) (v : α) : s.Extends (s.set p i v) :=
  ⟨Nat.le_of_eq (size_set s p i v).symm, fun n _ => capacityOf_set s p i v n⟩

theorem extends_publish (s : Stores α) (st : Store α) : s.Extends (s.publish st) := by
  refine ⟨?_, fun n hn => capacityOf_publish_of_lt st hn⟩
  rw [size_publish]
  exact Nat.le_succ _

end Stores

namespace Unguarded

open Gated (Deposit Setup)

variable {α : Type}

/-- The replaced store that a thread has in hand: it is to put it on the list. -/
def Task.hand? : Task α → Option Nat
  | .listEnter _ p _ | .listPush _ p => some p
  | _ => none

/-- The store that a thread has loaded the name of and is to use. -/
def Task.loaded? : Task α → Option Nat
  | .placeSlot _ _ p | .copy _ p _ _ | .fitSlot _ _ p | .accessSlot _ _ _ p | .collectLength p
  | .collect p _ _ => some p
  | _ => none

/-- The thread has store `n` in hand. -/
def Task.hasInHand (n : Nat) (k : Task α) : Bool := k.hand? == some n

/-- The deposit that thread `t` is to make at a task, unless the store has no such slot. -/
def Task.deposit? (t : Nat) (s : Stores α) : Task α → Option (Deposit α)
  | .placeSlot i v p | .fitSlot i v p =>
    if i < s.capacityOf p then some ⟨t, true, p, i, v⟩ else none
  | .accessSlot i (.store v) _ p => if i < s.capacityOf p then some ⟨t, false, p, i, v⟩ else none
  | _ => none

/-- What a step does to the stores, and to who has them: nothing, or a deposit, or a store is made
current for another, or one that was replaced is put on the list. -/
inductive Filing [Inhabited α] (t : Nat) (s : Shared α) (k : Task α) (s' : Shared α)
    (k' : Task α) : Prop
  | keep : k.deposit? t s.stores = none → s'.stores = s.stores → s'.replaced = s.replaced →
      k'.hand? = k.hand? → Filing t s k s' k'
  | deposit {d : Deposit α} : k.deposit? t s.stores = some d →
      s'.stores = s.stores.set d.name d.slot d.value → s'.replaced = s.replaced →
      k'.hand? = k.hand? → Filing t s k s' k'
  | publish {g : Growth α} {target : Nat} {buffer : Array α} : k = .publish g target buffer →
      s'.stores = s.stores.publish (.ofValues buffer target) → s'.replaced = s.replaced →
      k' = .listEnter g s.stores.current .out → Filing t s k s' k'
  | push {g : Growth α} {p : Nat} : k = .listPush g p → s'.stores = s.stores →
      s'.replaced = p :: s.replaced → k' = .listLeave g → Filing t s k s' k'

theorem hand?_afterGrowth (g : Growth α) : (Task.afterGrowth g).hand? = none := by
  cases g <;> rfl

section

variable [Inhabited α] {t : Nat} {s s' : Shared α} {k k' : Task α}

theorem Steps.filing (h : Steps s k s' k') (t : Nat) : Filing t s k s' k' := by
  cases h with
  | place v hi | fit v hi | store v len hi => exact .deposit (if_pos hi) rfl rfl rfl
  | noSlot v hi | lose v hi => exact .keep (if_neg (Nat.not_lt.mpr hi)) rfl rfl rfl
  | beyond a len hi =>
    refine .keep ?_ rfl rfl rfl
    cases a with
    | load => rfl
    | store v => exact if_neg (Nat.not_lt.mpr hi)
  | room | leave => exact .keep rfl rfl rfl (hand?_afterGrowth _)
  | publish => exact .publish rfl rfl rfl rfl
  | push => exact .push rfl rfl rfl rfl
  | _ => exact .keep rfl rfl rfl rfl

/-- No store loses or gains slots, and none goes. -/
theorem Filing.extends (h : Filing t s k s' k') :
    s.stores.Extends s'.stores := by
  cases h with
  | keep _ hstores =>
    rw [hstores]
    exact Stores.extends_refl _
  | deposit _ hstores =>
    rw [hstores]
    exact Stores.extends_set ..
  | publish _ hstores =>
    rw [hstores]
    exact Stores.extends_publish ..
  | push _ hstores =>
    rw [hstores]
    exact Stores.extends_refl _

/-- Nothing is taken off the list. -/
theorem Filing.replaced (h : Filing t s k s' k') :
    s.replaced <:+ s'.replaced := by
  cases h with
  | keep _ _ hreplaced | deposit _ _ hreplaced | publish _ _ hreplaced =>
    exact hreplaced.symm ▸ List.suffix_refl _
  | push _ _ hreplaced => exact hreplaced.symm ▸ List.suffix_cons ..

end

/-! ## Every store is in one place -/

/-- Every store there was so far is the current one, or on the list, or in a thread's hand, and in
one of these places only. -/
structure Accounted (p : Pool (Shared α) (Task α)) : Prop where
  once : ∀ n, (if n = p.shared.stores.current then 1 else 0) + p.shared.replaced.count n +
    p.threads.toList.countP (Task.hasInHand n) = if n < p.shared.stores.history.size then 1 else 0

variable {p : Pool (Shared α) (Task α)} {t n : Nat} {k k' : Task α} {s' : Shared α}

theorem Task.hasInHand_congr (h : k'.hand? = k.hand?) : k'.hasInHand n = k.hasInHand n := by
  rw [Task.hasInHand, h, Task.hasInHand]

theorem Accounted.size_pos (h : Accounted p) : 0 < p.shared.stores.history.size := by
  have honce := h.once p.shared.stores.current
  rw [if_pos rfl] at honce
  split at honce <;> omega

theorem Accounted.file [Inhabited α] (h : Accounted p) (ht : p.threads[t]? = some k)
    (hfiling : Filing t p.shared k s' k') : Accounted (p.put t s' k') := by
  have hpos := h.size_pos
  have hcurrent : p.shared.stores.current = p.shared.stores.history.size - 1 := rfl
  constructor
  intro n
  have honce := h.once n
  have hput := Pool.countP_put (u := k') (Task.hasInHand n) s' ht
  rw [Pool.shared_put]
  cases hfiling with
  | keep _ hstores hreplaced hhand =>
    rw [Task.hasInHand_congr hhand] at hput
    rw [hstores, hreplaced]
    omega
  | deposit _ hstores hreplaced hhand =>
    rw [Task.hasInHand_congr hhand] at hput
    rw [hstores, hreplaced, Stores.current_set, Stores.size_set]
    omega
  | publish hk hstores hreplaced hk' =>
    -- the thread is handed the store that was current
    rw [hstores, hreplaced, Stores.current_publish, Stores.size_publish]
    subst hk hk'
    simp only [Task.hasInHand, Task.hand?, beq_iff_eq, Option.some.injEq, reduceCtorEq,
      if_false] at hput honce ⊢
    split <;> split at honce <;> split at honce <;> split at hput <;> split <;> omega
  | push hk hstores hreplaced hk' =>
    rw [hstores, hreplaced, List.count_cons]
    subst hk hk'
    simp only [Task.hasInHand, Task.hand?, beq_iff_eq, Option.some.injEq, reduceCtorEq,
      if_false] at hput honce ⊢
    omega

/-- Thread `t` has the replaced store `n` in hand. -/
def InHand (p : Pool (Shared α) (Task α)) (t n : Nat) : Prop :=
  ∃ k, p.threads[t]? = some k ∧ k.hand? = some n

/-- Store `n` is in one place, and in no other. -/
inductive Kept (p : Pool (Shared α) (Task α)) (n : Nat) : Prop
  | current : n = p.shared.stores.current → n ∉ p.shared.replaced → (∀ t, ¬ InHand p t n) → Kept p n
  | listed : n ≠ p.shared.stores.current → p.shared.replaced.count n = 1 → (∀ t, ¬ InHand p t n) →
      Kept p n
  | inHand : n ≠ p.shared.stores.current → n ∉ p.shared.replaced → (∃! t, InHand p t n) → Kept p n

theorem Task.hasInHand_iff {k : Task α} : k.hasInHand n = true ↔ k.hand? = some n := by
  rw [Task.hasInHand, beq_iff_eq]

theorem not_inHand (h : p.threads.toList.countP (Task.hasInHand n) = 0) (t : Nat) :
    ¬ InHand p t n := by
  rintro ⟨k, ht, hhand⟩
  have hpos := Pool.countP_pos_iff.mpr ⟨t, k, ht, Task.hasInHand_iff.mpr hhand⟩
  omega

theorem existsUnique_inHand (h : p.threads.toList.countP (Task.hasInHand n) = 1) :
    ∃! t, InHand p t n := by
  obtain ⟨t, k, ht, hk⟩ := Pool.countP_pos_iff.mp (h ▸ Nat.one_pos)
  refine ⟨t, ⟨k, ht, Task.hasInHand_iff.mp hk⟩, ?_⟩
  rintro u ⟨k', hu, hk'⟩
  exact Pool.eq_of_countP_le_one (Nat.le_of_eq h) hu ht (Task.hasInHand_iff.mpr hk') hk

theorem Accounted.kept (h : Accounted p) (hn : n < p.shared.stores.history.size) : Kept p n := by
  have honce := h.once n
  rw [if_pos hn] at honce
  by_cases hcurrent : n = p.shared.stores.current
  · rw [if_pos hcurrent] at honce
    exact .current hcurrent (List.count_eq_zero.mp (by omega)) (not_inHand (by omega))
  · rw [if_neg hcurrent] at honce
    by_cases hlisted : p.shared.replaced.count n = 0
    · exact .inHand hcurrent (List.count_eq_zero.mp hlisted) (existsUnique_inHand (by omega))
    · exact .listed hcurrent (by omega) (not_inHand (by omega))

/-- Only stores that there were are on the list, none twice. -/
theorem Accounted.nodup (h : Accounted p) :
    p.shared.replaced.Nodup ∧ ∀ n ∈ p.shared.replaced, n < p.shared.stores.history.size := by
  refine ⟨List.nodup_iff_count_le_one.mpr ?_, ?_⟩
  · intro n
    have honce := h.once n
    split at honce <;> split at honce <;> omega
  · intro n hn
    have honce := h.once n
    have hpos := List.count_pos_iff.mpr hn
    by_contra hnot
    rw [if_neg hnot] at honce
    omega

/-! ## In every run -/

/-- An unguarded array as it is set up, its threads at rest. -/
def idle (S : Setup α) : Pool (Shared α) (Task α) :=
  ⟨ofStore S.store S.len S.config S.limits, .replicate S.threads (.rest none)⟩

theorem idle_get? {S : Setup α} (h : (idle S).threads[t]? = some k) : k = .rest none := by
  obtain ⟨-, rfl⟩ := Array.getElem?_eq_some_iff.mp h
  simp [idle]

theorem accounted_idle (S : Setup α) : Accounted (idle S) := by
  constructor
  intro n
  rw [idle, Array.toList_replicate, List.countP_replicate]
  simp [ofStore, Stores.single, Stores.current, Task.hasInHand, Task.hand?]

theorem hand?_ofCall (call : Call α) : (Task.ofCall call).hand? = none := by
  cases call <;> rfl

theorem hand?_of_rests (h : k.rests = true) : k.hand? = none := by
  cases k with
  | rest => rfl
  | _ => cases h

theorem Accounted.call (h : Accounted p) (c : Call α) (ht : p.threads[t]? = some k)
    (hrest : k.rests = true) : Accounted (p.put t p.shared (.ofCall c)) := by
  constructor
  intro n
  have honce := h.once n
  have hput := Pool.countP_put (u := .ofCall c) (Task.hasInHand n) p.shared ht
  rw [Task.hasInHand_congr ((hand?_ofCall c).trans (hand?_of_rests hrest).symm)] at hput
  rw [Pool.shared_put]
  omega

variable [Inhabited α]

/-- The array and its threads after some turns. -/
def after (S : Setup α) (turns : List (Turn (Call α))) : Pool (Shared α) (Task α) :=
  (machine α).run (idle S) turns

/-- What was seen of the calls in these turns. -/
def history (S : Setup α) (turns : List (Turn (Call α))) :
    List (Machine.Event (Call α) (Answer α)) :=
  (machine α).history (idle S) turns

variable (S : Setup α) (turns : List (Turn (Call α)))

theorem after_concat (turn : Turn (Call α)) :
    after S (turns ++ [turn]) = (machine α).act (after S turns) turn :=
  Machine.run_concat _ _ turns turn

theorem history_concat (turn : Turn (Call α)) : history S (turns ++ [turn]) =
    history S turns ++ ((machine α).event? (after S turns) turn).toList :=
  Machine.history_concat _ _ turns turn

theorem accounted_after : Accounted (after S turns) := by
  induction turns using List.reverseRecOn with
  | nil => exact accounted_idle S
  | append_singleton turns turn ih =>
    rw [after_concat]
    refine Machine.act_keeps ih ?_ ?_ turn
    · intro t k c ht hrest
      exact ih.call c ht hrest
    · intro t k luck ht _
      exact ih.file ht ((steps _ k).filing t)

end Unguarded

end Growable.SharedArray
