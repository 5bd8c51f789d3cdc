import Growable.Proofs.Lock.Monitors
import Growable.Proofs.SharedArray.Alone.Gated
import Growable.Proofs.SharedArray.Alone.Monitored
import Growable.Proofs.SharedArray.Alone.Unguarded
import Growable.SharedArray.Basic

/-!
# One strategy by itself

The seven kinds of strategy are one: to a thread by itself each is a store and a length, and a call
comes to the same on each of them, save what `Strategy.beyond` says of a length that lies beyond the
end of the store, and what `Strategy.taken` says of indices that were taken for elements the machine
had no room for. Taking a strategy apart gives the two back.
-/

namespace Growable

/-- Whether an append takes its index before the element is there. -/
def Kind.reserves (k : Kind) : Bool :=
  match SharedArray.Discipline.ofKind k with
  | .gated _ => true
  | _ => false

namespace SharedArray

open Lock (Gate Monitor Monitors)

/-- A gate of this kind at the service of one thread that is outside. -/
def GateKind.Lone : (k : GateKind) → k.gate.Word → k.gate.Place → Prop
  | stamped => fun w p => Lock.Stamped.Quiet w ∧ p = .out
  | layout => fun w p => w = ({} : Lock.Layout) ∧ p = .out
  | flagged => Lock.Flagged.Lone

theorem GateKind.solo : (k : GateKind) → k.gate.Solo k.Lone
  | stamped => Gate.solo_stamped
  | layout => Gate.solo_layout
  | flagged => Gate.solo_flagged

theorem MonitorKind.lawful {L : Monitors} (hL : L.Lawful) : (k : MonitorKind) → (k.monitor L).Lawful
  | mutex => hL.mutex
  | reentrant => hL.reentrant
  | spin => Monitor.lawful_spin

namespace Strategy

variable {L : Monitors} {α : Type} {limits : Limits} {allowed : Nat} {p : Parts α}

/-- What an access comes to whose index is below the length but past the end of the store. -/
def beyond : Strategy L α → Access α → Nat → Nat → Answer α
  | unguarded _ => Unguarded.beyond
  | monitored _ _ => Monitored.beyond
  | gated k s _ => Gated.beyond k.gate s.tries

/-- The indices that are taken: those of the elements, and where an append takes its index first
also those it was broken off with. -/
def taken : Strategy L α → Nat
  | unguarded s => s.length
  | monitored _ s => s.length
  | gated _ s _ => s.reserved

/-- The indices that are taken once a call has left the parts `q`. -/
def takenAfter (s : Strategy L α) (allowed : Nat) (c : Call α) (q : Parts α) : Nat :=
  if s.kind.reserves then Parts.takenAfter allowed s.taken c else q.length

/-- What a strategy is to a thread by itself. -/
def Holds (limits : Limits) (allowed : Nat) (p : Parts α) : Strategy L α → Prop
  | unguarded s => Unguarded.Holds s limits allowed p
  | monitored k s => Monitored.Holds s (k.monitor L).free limits allowed p
  | gated k s owner =>
    Gated.Holds s limits allowed s.tries s.reserved p ∧ p.Taken limits allowed s.reserved ∧
      k.Lone s.gate owner

theorem holds_ofStore (k : Kind) (p : Parts α) (config : Config) (limits : Limits) :
    (ofStore k p.store p.length config limits : Strategy L α).Holds limits config.maxCapacity
      p := by
  unfold ofStore
  cases Discipline.ofKind k with
  | unguarded => exact Unguarded.holds_ofStore p config limits
  | monitored k => exact Monitored.holds_ofStore p config limits
  | gated k =>
    exact ⟨Gated.holds_ofStore k.gate p config limits, .inl rfl, k.solo.fresh⟩

theorem Holds.length {s : Strategy L α} (h : s.Holds limits allowed p) : s.length = p.length := by
  cases s with
  | unguarded s => exact Unguarded.Holds.length h
  | monitored k s => exact Monitored.Holds.length h
  | gated k s owner => exact h.1.committed

theorem Holds.capacity {s : Strategy L α} (h : s.Holds limits allowed p) :
    s.capacity = p.store.capacity := by
  cases s with
  | unguarded s => exact (Unguarded.Holds.ends h).capacity
  | monitored k s => exact congrArg Store.capacity (Monitored.Holds.store h)
  | gated k s owner => exact h.1.ends.capacity

theorem Holds.store {s : Strategy L α} (h : s.Holds limits allowed p) : s.store = p.store := by
  cases s with
  | unguarded s => exact (Unguarded.Holds.ends h).latest
  | monitored k s => exact Monitored.Holds.store h
  | gated k s owner => exact h.1.ends.latest

theorem Holds.taken {s : Strategy L α} (h : s.Holds limits allowed p) :
    p.Taken limits allowed s.taken := by
  cases s with
  | unguarded s => exact .inl (Unguarded.Holds.length h)
  | monitored k s => exact .inl (Monitored.Holds.length h)
  | gated k s owner => exact h.2.1

/-- Where an append does not take its index first, no other indices are taken. -/
theorem Holds.taken_eq {s : Strategy L α} (h : s.Holds limits allowed p)
    (hk : s.kind.reserves = false) : s.taken = p.length := by
  cases s with
  | unguarded s => exact Unguarded.Holds.length h
  | monitored k s => exact Monitored.Holds.length h
  | gated k s owner => cases k <;> cases hk

theorem Holds.reclaim {s : Strategy L α} (h : s.Holds limits allowed p) :
    s.reclaim.1.Holds limits allowed p := by
  cases s with
  | unguarded s => exact Unguarded.Holds.reclaim h
  | monitored k s => exact h
  | gated k s owner => exact h

/-- A strategy that is taken apart gives back the store and the length. -/
theorem Holds.intoParts {s : Strategy L α} (h : s.Holds limits allowed p) :
    s.intoParts.1 = p.store ∧ s.intoParts.2.1 = p.length :=
  ⟨h.reclaim.store, h.reclaim.length⟩

/-- A call comes to the same on every strategy. -/
theorem Holds.perform [Inhabited α] (hL : L.Lawful) {s : Strategy L α}
    (h : s.Holds limits allowed p) (c : Call α) :
    (s.perform c).2 = (p.perform limits allowed s.taken s.beyond c).2 ∧
      (s.perform c).1.Holds limits allowed (p.perform limits allowed s.taken s.beyond c).1 ∧
      (s.perform c).1.kind = s.kind ∧ (s.perform c).1.beyond = s.beyond ∧
      (s.perform c).1.taken =
        s.takenAfter allowed c (p.perform limits allowed s.taken s.beyond c).1 := by
  cases s with
  | unguarded s =>
    obtain ⟨s', hperform, h', -⟩ := Unguarded.perform_spec h c (.rest none)
    rw [← Unguarded.Holds.length h] at hperform h'
    simp only [Strategy.perform, hperform]
    exact ⟨rfl, h', rfl, rfl, Unguarded.Holds.length h'⟩
  | monitored k s =>
    obtain ⟨word, place, hsolo⟩ := (k.lawful hL).solo 0
    obtain ⟨s', hperform, h'⟩ := Monitored.perform_spec hsolo h c
    rw [← Monitored.Holds.length h] at hperform h'
    simp only [Strategy.perform, hperform]
    refine ⟨rfl, h', rfl, rfl, (Monitored.Holds.length h').trans ?_⟩
    cases k <;> rfl
  | gated k s owner =>
    obtain ⟨s', place', hperform, h', hlone⟩ := Gated.perform_spec k.solo h.1 h.2.2 h.2.1 c
    have htaken := h.2.1.perform (Gated.beyond k.gate s.tries) c
    have htries := h'.tries
    have hreserved := h'.reserved
    rw [← htries, ← hreserved] at h'
    rw [← hreserved] at htaken
    simp only [Strategy.perform, hperform]
    refine ⟨rfl, ⟨?_, htaken, hlone⟩, rfl, ?_, hreserved.trans ?_⟩
    · simpa only [beyond, Strategy.taken, htries] using h'
    · simp only [beyond, htries]
    · cases k <;> rfl

end Strategy

end SharedArray

end Growable
