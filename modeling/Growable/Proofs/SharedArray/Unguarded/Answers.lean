import Growable.Proofs.SharedArray.Unguarded.Contents
import Growable.Proofs.Waiting

/-!
# What the calls on an unguarded array are answered with

Each thread finds its own way to an answer, from what it has loaded, and no slot it tries past the
end of a store breaks the call off: an append tries again in the next store it loads, or lets the
element go, and a read or a write is refused. So every answer is of the sort the call asks for, or
it is a refusal for a reason the thread did find, or the machine has no room for what the call
needs. And since an append stores a length only one above the one it loaded, lengths rise no further
than by the appends that were begun.
-/

namespace Growable.SharedArray

variable {α : Type}

/-- The call is an append. -/
def Call.isAppend : Call α → Bool
  | append _ => true
  | _ => false

namespace Unguarded

open Gated (Deposit Setup)
open Machine (calls lastCall?)

/-! ## Tasks of calls -/

/-- The task is part of the call, or the call is answered. -/
def Task.Serves (call : Call α) : Task α → Prop
  | .rest last? => last?.isSome = true
  | .length => call = .length
  | .measure => call = .capacity
  | .placeLength v | .placePointer _ v | .placeSlot _ v _ | .fitPointer _ v | .fitSlot _ v _ =>
    call = .append v
  | .growPointer g | .copy g .. | .publish g .. | .listEnter g .. | .listPush g _ | .listLeave g =>
    call = g.call
  | .raise _ => ∃ v, call = .append v
  | .accessLength i a | .accessPointer i a _ | .accessSlot i a .. => call = a.call i
  | .collectPointer | .collectLength _ | .collect .. => call = .toArray

theorem rests_ofCall (call : Call α) : (Task.ofCall call).rests = false := by
  cases call <;> rfl

theorem serves_ofCall (call : Call α) : (Task.ofCall call).Serves call := by
  cases call <;> exact rfl

theorem serves_afterGrowth {call : Call α} {g : Growth α} (h : call = g.call) :
    (Task.afterGrowth g).Serves call := by
  cases g with
  | fit i v => exact h
  | reserve n => rfl

theorem Task.call_of_deposit? {call : Call α} {t : Nat} {s : Stores α} {k : Task α} {d : Deposit α}
    (h : k.deposit? t s = some d) (hk : k.Serves call) : call = d.call := by
  cases k with
  | placeSlot i v p | fitSlot i v p =>
    obtain ⟨-, ⟨⟩⟩ := Option.ite_none_right_eq_some.mp h
    exact hk
  | accessSlot i a len p =>
    cases a with
    | load => cases h
    | store v =>
      obtain ⟨-, ⟨⟩⟩ := Option.ite_none_right_eq_some.mp h
      exact hk
  | _ => cases h

/-- What a call may be answered with: what it asks for, with no value that may not be at its index,
or the refusal of an index or of more slots than are allowed. An append is refused only once the
length is all that is allowed. A call for which the machine has no room is broken off, and so is an
append that cannot say how many slots it is refused. -/
def Meets (limits : Limits) (allowed most : Nat) (P : Nat → α → Prop) : Call α → Answer α → Prop
  | .append _, .index i => i < allowed
  | .append _, .refused e => (.full limits allowed allowed : Answer α) = .refused e
  | .append _, .overflowed => (.full limits allowed allowed : Answer α) = .overflowed ∨
    ∃ i < allowed, ∃ current, ¬ limits.Admits current (i + 1) allowed
  | .read i, .value v => P i v
  | .read i, .refused e | .write i _, .refused e => ∃ len ≤ allowed, e = .indexOutOfBounds i len
  | .write .., .done | .ensureCapacity _, .done => True
  | .ensureCapacity n, .refused e => allowed < n ∧ e = .capacityOverflow n allowed
  | .ensureCapacity n, .overflowed => ∃ current, ¬ limits.Admits current n allowed
  | .toArray, .values vs => vs.size ≤ allowed ∧ Each P vs
  | .length, .count n => n ≤ allowed
  | .capacity, .count n => n ≤ most
  | _, _ => False

variable {limits : Limits} {allowed most : Nat} {P P' : Nat → α → Prop} {s s' : Shared α}
  {k k' : Task α} {a : Answer α}

theorem Meets.mono {call : Call α} (h : Meets limits allowed most P call a)
    (hP : ∀ i v, P i v → P' i v) : Meets limits allowed most P' call a := by
  cases call with
  | read i =>
    cases a with
    | value v => exact hP i v h
    | _ => exact h
  | toArray =>
    cases a with
    | values vs => exact ⟨h.1, h.2.mono hP⟩
    | _ => exact h
  | _ => cases a <;> exact h

variable [Inhabited α]

/-- A step goes on with the call or answers it. -/
theorem Steps.serves {call : Call α} (h : Steps s k s' k') (hserves : k.Serves call) : k'.Serves call := by
  cases h with
  | room | leave => exact serves_afterGrowth hserves
  | place v | fit v | lose v => exact ⟨v, hserves⟩
  | rest | begin | placePointer | noSlot | grow | copy | copied | publish | see | wait | take
  | inside | push | fitPointer | inBounds | accessPointer | collectPointer | collectLength
  | collect => exact hserves
  | _ => rfl

variable (S : Setup α) (turns : List (Turn (Call α)))

/-- A thread under way is at a task of the call that it was handed last. -/
theorem serves_after {t : Nat} (ht : (after S turns).threads[t]? = some k)
    (hbusy : k.rests = false) :
    ∃ call, lastCall? (history S turns) t = some call ∧ k.Serves call := by
  refine Machine.busy_invariant (m := machine α)
    (fun turns t k => ∃ call, lastCall? (history S turns) t = some call ∧ k.Serves call)
    ?_ ?_ ?_ ?_ ht hbusy
  · intro t k ht
    rw [idle_get? ht]
    rfl
  · intro turns t k call ht hrest
    exact ⟨call, Machine.lastCall?_of_call call ht hrest (rests_ofCall call), serves_ofCall call⟩
  · rintro turns t k luck ht hbusy ⟨call, hcall, hserves⟩ -
    exact ⟨call, (Machine.lastCall?_of_busy ⟨k, ht, hbusy⟩ _).trans hcall, (steps _ k).serves hserves⟩
  · rintro turns t k turn - ht - hbusy ⟨call, hcall, hserves⟩
    exact ⟨call, (Machine.lastCall?_of_busy ⟨k, ht, hbusy⟩ turn).trans hcall, hserves⟩

theorem limits_after : (after S turns).shared.limits = S.limits := by
  induction turns using List.reverseRecOn with
  | nil => rfl
  | append_singleton turns turn ih =>
    rw [after_concat]
    refine Machine.act_keeps (P := fun p : Pool (Shared α) (Task α) => p.shared.limits = S.limits)
      ih ?_ ?_ turn
    · exact fun _ _ _ => ih
    · intro t k luck _ _
      exact (steps _ k).limits_eq.trans ih

/-- The thread has begun an append and loads the length next. -/
def Task.isFresh : Task α → Bool
  | .placeLength _ => true
  | _ => false

/-- The number of appends that were begun. -/
def begun (S : Setup α) (turns : List (Turn (Call α))) : Nat :=
  (calls (history S turns)).countP Call.isAppend

/-- Lengths and indices count appends that were begun, and those that have not loaded the length yet
besides. -/
structure Paced (most : Nat) (p : Pool (Shared α) (Task α)) : Prop where
  length : p.shared.length + p.threads.toList.countP Task.isFresh ≤ most
  index : ∀ {t : Nat} {k : Task α} {i : Nat}, p.threads[t]? = some k → k.index? = some i →
    i + 1 + p.threads.toList.countP Task.isFresh ≤ most

variable {p : Pool (Shared α) (Task α)}

theorem Steps.isFresh (h : Steps s k s' k') : k'.isFresh = false := by
  cases h with
  | @room g | leave g => cases g <;> rfl
  | _ => rfl

theorem Paced.step {t : Nat} (h : Paced most p) (ht : p.threads[t]? = some k)
    (hstep : Steps p.shared k s' k') : Paced most (p.put t s' k') := by
  have hput := Pool.countP_put (u := k') Task.isFresh s' ht
  rw [hstep.isFresh, if_neg Bool.false_ne_true, Nat.add_zero] at hput
  have hlength := h.length
  constructor
  · rw [Pool.shared_put]
    rcases hstep.length_eq with hsame | ⟨i, rfl, hraised⟩
    · rw [hsame]
      omega
    · have hindex := h.index ht rfl
      rw [hraised]
      omega
  · intro u l i hu hi
    rcases (Pool.getElem?_put_iff ht).mp hu with ⟨-, rfl⟩ | ⟨-, hu'⟩
    · rcases hstep.index? hi with hold | ⟨⟨v, rfl⟩, rfl, -⟩
      · have hindex := h.index ht hold
        omega
      · -- the thread is counted once more: by its index now
        rw [if_pos (show Task.isFresh (.placeLength v) = true from rfl)] at hput
        omega
    · have hindex := h.index hu' hi
      omega

omit [Inhabited α] in
theorem Paced.call {t : Nat} (h : Paced most p) (c : Call α) (ht : p.threads[t]? = some k)
    (hrest : k.rests = true) :
    Paced (most + if c.isAppend then 1 else 0) (p.put t p.shared (.ofCall c)) := by
  have hput := Pool.countP_put (u := .ofCall c) Task.isFresh p.shared ht
  have hfresh : (Task.ofCall c).isFresh = c.isAppend := by cases c <;> rfl
  have hrested : k.isFresh = false := by
    cases k with
    | rest => rfl
    | _ => cases hrest
  rw [hfresh, hrested, if_neg Bool.false_ne_true, Nat.add_zero] at hput
  constructor
  · have hlength := h.length
    rw [Pool.shared_put]
    omega
  · intro u k' i hu hi
    rcases (Pool.getElem?_put_iff ht).mp hu with ⟨-, rfl⟩ | ⟨-, hu'⟩
    · cases c <;> cases hi
    · have hindex := h.index hu' hi
      omega

theorem paced_after : Paced (S.len + begun S turns) (after S turns) := by
  induction turns using List.reverseRecOn with
  | nil =>
    constructor
    · simp [after, Machine.run_nil, idle, ofStore, Task.isFresh, List.countP_replicate]
    · intro t k i ht hi
      rw [idle_get? ht] at hi
      cases hi
  | append_singleton turns turn ih =>
    rw [begun, history_concat, after_concat]
    cases turn with
    | call t c =>
      have hmoves := Machine.moves_act (machine α) (after S turns) (.call t c)
      generalize (machine α).event? (after S turns) (.call t c) = e,
        (machine α).act (after S turns) (.call t c) = p' at hmoves
      cases hmoves with
      | idle =>
        rw [Option.toList_none, List.append_nil]
        exact ih
      | @call _ _ k ht hrest =>
        rw [show (machine α).rests ((machine α).start c k) = false from rests_ofCall c,
          if_neg Bool.false_ne_true, Option.toList_some, Machine.calls_concat, List.countP_append,
          List.countP_singleton, ← Nat.add_assoc]
        exact ih.call c ht hrest
    | step t luck =>
      rw [Machine.calls_of_isStep _ rfl]
      have hacts := Machine.acts (machine α) (after S turns) (.step t luck)
      generalize (machine α).act (after S turns) (.step t luck) = p' at hacts
      cases hacts with
      | idle => exact ih
      | step ht => exact ih.step ht (steps _ _)

end Unguarded

end Growable.SharedArray
