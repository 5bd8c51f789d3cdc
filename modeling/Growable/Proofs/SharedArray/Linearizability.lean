import Growable.Proofs.SharedArray.Gated.Refusals
import Growable.Proofs.SharedArray.Monitored
import Growable.Proofs.SharedArray.Strategy

/-!
# Appends and lengths in one order

Threads that use an array of a thread-safe kind at once append and ask for the length as if one did so
after the other: the order of the answers is such an order. Under a monitor an append is refused when
as many elements as are allowed are there. Under a gate it is refused when every index is reserved,
which may be before the length says so: then the indices that are left belong to appends under way,
none of which is refused. When those are over the length is what is allowed. The machine is one
without limits, so every append that has an index finds room.
-/

namespace Growable

namespace SharedArray

open Lock (Monitor Monitors)
open Machine (Event Linearizable Operation operations)

/-- What is seen of threads that use an array at once and have not used it before. -/
def Strategy.history {L : Monitors} {α : Type} [Inhabited α] (s : Strategy L α) (threads : Nat)
    (turns : List (Turn (Call α))) : List (Event (Call α) (Answer α)) :=
  match s with
  | .unguarded s => (Unguarded.machine α).history ⟨s, .replicate threads (.rest none)⟩ turns
  | .monitored k s => (Monitored.machine (k.monitor L) α).history ⟨s, .replicate threads {}⟩ turns
  | .gated k s _ => (Gated.machine k.gate α).history ⟨s, .replicate threads {}⟩ turns

/-- How appends and lengths of an array of a kind, which had `len` elements at first and may have
`allowed`, were answered. -/
structure Linearized {α : Type} (k : Kind) (len allowed : Nat)
    (es : List (Event (Call α) (Answer α))) : Prop where
  /-- In one order, which respects real time, each is answered what is due. An append may be refused
  ahead of time only where appends take their index first. -/
  linearizable : Linearizable
    (Legal len allowed (if k.reserves then Booked es allowed else Full allowed)) es
  /-- A length that is asked for after an append was refused is what is allowed; where appends take
  their index first, once those are over that were under way at the refusal. -/
  settled : ∀ {o o' : Operation (Call α) (Answer α)} {v : α} {e : Error}, o ∈ operations es →
    o' ∈ operations es → o.call = .append v → o.answer = .refused e → o'.call = .length →
    o.stop < o'.start →
    (k.reserves = true → ∀ t, Meets o t → ∃ m a, o.stop < m ∧ m < o'.start ∧
      es[m]? = some (.answered t a)) →
    o'.answer = .count allowed

/-- Whatever threads do with an array of a thread-safe kind and in whichever order they take their
steps, appends and lengths are answered as by one bounded count. -/
theorem linearized_after {L : Monitors} (hL : L.Lawful) {α : Type} [Inhabited α] (k : Kind)
    (hk : k.isThreadSafe = true) (store : Store α) (len : Nat) (config : Config)
    (hlen : len ≤ config.maxCapacity) (threads : Nat) (turns : List (Turn (Call α))) :
    Linearized k len config.maxCapacity
      ((Strategy.ofStore k store len config : Strategy L α).history threads turns) := by
  have hlimits : Limits.Suffices {} config.maxCapacity := Limits.suffices_default _
  unfold Strategy.ofStore
  cases hkind : Discipline.ofKind k with
  | unguarded =>
    cases k with
    | fixedSize => cases hk
    | _ => cases hkind
  | monitored m =>
    have hreserves : k.reserves = false := by
      rw [Kind.reserves, hkind]
    obtain ⟨Fits, hM⟩ := (m.lawful hL).excludes
    have hlegal := Monitored.legal_after hM hlimits hlen store threads turns
    have hlinearizable := Machine.linearizable_of_operations hlegal
    refine ⟨?_, ?_⟩
    · rw [hreserves, if_neg Bool.false_ne_true]
      exact hlinearizable
    · intro o o' v e ho ho' hcall hanswer hcall' hlater _
      exact count_of_full hlinearizable hlen ho ho' hcall hanswer hcall' hlater
  | gated g =>
    have hreserves : k.reserves = true := by
      rw [Kind.reserves, hkind]
    let S : Gated.Setup α := { store, len, config, threads }
    refine ⟨?_, ?_⟩
    · rw [if_pos hreserves]
      exact Machine.linearizable_of_operations (S.legal_after hlimits hlen g turns)
    · intro o o' v e ho ho' hcall hanswer hcall' hlater hover
      exact S.count_of_refused hlimits hlen ho ho' hcall hanswer hcall' hlater (hover hreserves)

/-- One slot, which is free, and as many as are allowed. -/
def oneSlot : Strategy {} Nat :=
  .ofStore .stampedLock ⟨#[0]⟩ 0 { maxCapacity := 1 }

/-- One thread has reserved the slot when another is refused an append. -/
def lastReserved : List (Turn (Call Nat)) :=
  [.call 0 (.append 10), .step 0 true, .step 0 true, .call 1 (.append 20), .step 1 true]

/-- The first thread goes on to the end, and then the other asks for the length. -/
def refusedThenFull : List (Turn (Call Nat)) :=
  lastReserved ++ List.replicate 8 (.step 0 true) ++ [.call 1 .length, .step 1 true]

theorem linearized_after_refusedThenFull :
    Monitors.Lawful {} ∧ Kind.stampedLock.isThreadSafe = true ∧
    0 ≤ ({ maxCapacity := 1 } : Config).maxCapacity ∧
    oneSlot.history 2 refusedThenFull =
      [.called 0 (.append 10), .called 1 (.append 20),
        .answered 1 (.refused (.capacityOverflow 2 1)), .answered 0 (.index 0),
        .called 1 .length, .answered 1 (.count 1)] ∧
    Linearized .stampedLock 0 1 (oneSlot.history 2 refusedThenFull) :=
  ⟨Monitors.lawful_default, rfl, by decide, by decide +kernel,
    linearized_after Monitors.lawful_default .stampedLock rfl ⟨#[0]⟩ 0 { maxCapacity := 1 }
      (by decide) 2 refusedThenFull⟩

/-- The other thread asks for the length at once, and then the first one goes on to the end. -/
def refusedEarly : List (Turn (Call Nat)) :=
  lastReserved ++ [.call 1 .length, .step 1 true] ++ List.replicate 8 (.step 0 true)

/-- What had been seen before the answers in that run. -/
def seenEarly : List (Event (Call Nat) (Answer Nat)) :=
  [.called 0 (.append 10), .called 1 (.append 20),
    .answered 1 (.refused (.capacityOverflow 2 1)), .called 1 .length, .answered 1 (.count 0),
    .answered 0 (.index 0)]

/-- Where an append takes its index first, no order makes a refusal come when the array is full: the
length that is asked for later is 0. -/
theorem not_linearizable_refusedEarly :
    0 ≤ (⟨#[0]⟩ : Store Nat).capacity ∧
    (⟨#[0]⟩ : Store Nat).capacity ≤ ({ maxCapacity := 1 } : Config).maxCapacity ∧
    oneSlot.history 2 refusedEarly = seenEarly ∧
    ¬ Linearizable (Legal 0 1 (Full 1)) (oneSlot.history 2 refusedEarly) := by
  have hseen : oneSlot.history 2 refusedEarly = seenEarly := by decide +kernel
  refine ⟨by decide, by decide, hseen, ?_⟩
  rw [hseen]
  intro hlinearizable
  have hrefused : ⟨1, .append 20, .refused (.capacityOverflow 2 1), 1, seenEarly.take 2⟩ ∈
      operations seenEarly := by decide
  have hlength : ⟨1, .length, .count 0, 3, seenEarly.take 4⟩ ∈ operations seenEarly := by decide
  have hcount := count_of_full hlinearizable (by decide) hrefused hlength rfl rfl rfl (by decide)
  cases hcount

end SharedArray

end Growable
