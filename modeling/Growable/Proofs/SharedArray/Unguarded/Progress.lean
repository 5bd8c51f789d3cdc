import Growable.Proofs.SharedArray.Unguarded.Contents
import Growable.Proofs.Waiting

/-!
# The calls on an unguarded array end

All that a thread may have to wait for is the lock on the list of replaced stores, and the thread that
has it releases it in its next two steps. Of the others each step brings a call nearer to its end,
for what is copied is no more than the largest store has. A thread that takes the lock sends the
others that saw it free back to look again, which is made up for by its own step.
-/

namespace Growable.SharedArray.Unguarded

open Gated (Setup)

variable {α : Type}

/-! ## The lock on the list -/

/-- The thread has the lock on the list. -/
def Task.isAtList : Task α → Bool
  | .listEnter _ _ .inside | .listPush .. | .listLeave _ => true
  | _ => false

/-- The lock on the list is taken if a thread has it, and one thread at most has. -/
def Manned (p : Pool (Shared α) (Task α)) : Prop :=
  p.threads.toList.countP Task.isAtList = if p.shared.listTaken then 1 else 0

/-- The thread is kept from the lock for now. -/
def Task.waits (taken : Bool) : Task α → Bool
  | .listEnter _ _ .inside => false
  | .listEnter .. => taken
  | _ => false

/-- The thread is on its way to the lock and has not seen it free, or it is taken again. -/
def Task.looks (taken : Bool) : Task α → Bool
  | .listEnter _ _ .out => true
  | .listEnter _ _ .swap => taken
  | _ => false

/-- How many steps a call is from its end at most, if nobody keeps it from the lock. -/
def Task.weight (most : Nat) : Task α → Nat
  | .rest _ => 0
  | .length | .measure | .raise _ | .accessSlot .. => 1
  | .fitSlot .. | .accessPointer .. => 2
  | .fitPointer .. | .accessLength .. => 3
  | .listLeave _ => 4
  | .listPush .. => 5
  | .listEnter .. => 6
  | .publish .. => 7
  | .copy _ _ _ buffer => most - buffer.size + 8
  | .growPointer _ => most + 9
  | .placeSlot .. => most + 10
  | .placePointer .. => most + 11
  | .placeLength _ => most + 12
  | .collect _ n buffer => n - buffer.size + 1
  | .collectLength _ => most + 2
  | .collectPointer => most + 3

theorem isAtList_afterGrowth (g : Growth α) : (Task.afterGrowth g).isAtList = false := by
  cases g <;> rfl

variable {allowed most t : Nat} {P : Nat → α → Prop} {s s' : Shared α} {k k' : Task α}
  {p : Pool (Shared α) (Task α)}

theorem Manned.taken (h : Manned p) (ht : p.threads[t]? = some k) (hk : k.isAtList = true) :
    p.shared.listTaken = true := by
  have hpos := Pool.countP_pos_iff.mpr ⟨t, k, ht, hk⟩
  rw [h] at hpos
  by_contra hfree
  rw [if_neg hfree] at hpos
  cases hpos

theorem Manned.call (h : Manned p) (c : Call α) (ht : p.threads[t]? = some k)
    (hrest : k.rests = true) : Manned (p.put t p.shared (.ofCall c)) := by
  have hput := Pool.countP_put (u := .ofCall c) Task.isAtList p.shared ht
  have hstart : (Task.ofCall c).isAtList = false := by cases c <;> rfl
  have hrested : k.isAtList = false := by
    cases k with
    | rest => rfl
    | _ => cases hrest
  rw [hstart, hrested, h] at hput
  exact hput

variable [Inhabited α]

/-- What a step does with the lock: the thread leaves it where it is, or takes it, or, having it,
releases it. -/
inductive Passing (s : Shared α) (k : Task α) (s' : Shared α) (k' : Task α) : Prop
  | same : s'.listTaken = s.listTaken → k'.isAtList = k.isAtList → Passing s k s' k'
  | take : s.listTaken = false → s'.listTaken = true → k.isAtList = false → k'.isAtList = true →
      Passing s k s' k'
  | release : k.isAtList = true → k'.isAtList = false → s'.listTaken = false → Passing s k s' k'

theorem Steps.passing (h : Steps s k s' k') : Passing s k s' k' := by
  cases h with
  | take g n hfree => exact .take hfree rfl rfl rfl
  | leave g => exact .release rfl (isAtList_afterGrowth g) rfl
  | room => exact .same rfl (isAtList_afterGrowth _)
  | @wait place _ _ _ hplace =>
    refine .same rfl ?_
    cases place with
    | inside => exact absurd rfl hplace
    | out | swap => rfl
  | _ => exact .same rfl rfl

theorem Manned.step (h : Manned p) (ht : p.threads[t]? = some k)
    (hstep : Steps p.shared k s' k') : Manned (p.put t s' k') := by
  have hput := Pool.countP_put (u := k') Task.isAtList s' ht
  rw [h] at hput
  rw [Manned, Pool.shared_put]
  cases hstep.passing with
  | same htaken hlist =>
    rw [hlist] at hput
    rw [htaken]
    exact Nat.add_right_cancel hput
  | take hfree htaken hout hlist =>
    rw [hlist, hout, hfree] at hput
    rw [htaken]
    exact hput
  | release hlist hout hfree =>
    rw [hlist, hout, h.taken ht hlist] at hput
    rw [hfree]
    exact Nat.add_right_cancel hput

/-- What there is left to do: the steps of all calls, and looks at the lock, of which as many as there
are threads may have to be made again whenever a step is done. -/
def left (S : Setup α) (p : Pool (Shared α) (Task α)) : Nat :=
  (S.threads + 1) * Machine.total (Task.weight (largest S)) p +
    p.threads.toList.countP (Task.looks p.shared.listTaken)

/-- Thread `t` is under way, and nobody keeps it from the lock. -/
def Ready (p : Pool (Shared α) (Task α)) (t : Nat) : Prop :=
  ∃ k, p.threads[t]? = some k ∧ k.rests = false ∧ k.waits p.shared.listTaken = false

end Growable.SharedArray.Unguarded
