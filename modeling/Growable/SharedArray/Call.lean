import Growable.Record
import Growable.Store

/-!
# Calls on a shared array

What a thread may ask of a shared array and what it is answered, whatever strategy keeps the
threads apart; and the stores an array has had, by number.
-/

namespace Growable.SharedArray

/-- What a thread may ask. -/
inductive Call (α : Type) where
  /-- Adds an element behind the last one. -/
  | append (v : α)
  /-- Reads element `i`. -/
  | read (i : Nat)
  /-- Overwrites element `i`. -/
  | write (i : Nat) (v : α)
  /-- Makes room for `n` elements. -/
  | ensureCapacity (n : Nat)
  /-- Copies all elements. -/
  | toArray
  /-- The number of elements. -/
  | length
  /-- The number of slots. -/
  | capacity
  deriving DecidableEq, Repr

/-- What a call is answered with. -/
inductive Answer (α : Type) where
  /-- The index an element was appended at. -/
  | index (i : Nat)
  | value (v : α)
  | values (vs : Array α)
  | count (n : Nat)
  | done
  /-- The call was refused and changed nothing. -/
  | refused (e : Error)
  /-- The call was broken off at a slot past the end of the store; it changed nothing. -/
  | brokenOff
  /-- The call was broken off at a size beyond the machine's limits; no element, no length and no
  store is other than before. -/
  | overflowed
  /-- The call has not been answered: its thread waits. -/
  | waiting
  deriving DecidableEq, Repr

/-- What an append is answered that finds `taken` indices taken and more are not allowed. -/
def Answer.full {α : Type} (limits : Limits) (taken allowed : Nat) : Answer α :=
  match limits.succ? taken with
  | some n => .refused (.capacityOverflow n allowed)
  | none => .overflowed

theorem Answer.full_of_suffices {α : Type} {limits : Limits} {taken : Nat}
    (h : limits.Suffices taken) (allowed : Nat) :
    (Answer.full limits taken allowed : Answer α) =
      .refused (.capacityOverflow (taken + 1) allowed) := by
  rw [Answer.full, h.succ?]

/-- What is done with one slot. -/
inductive Access (α : Type) where
  | load
  | store (v : α)
  deriving DecidableEq, Repr

/-- What a store is replaced by a larger one for. -/
inductive Growth (α : Type) where
  /-- The element that is appended at `i` does not fit. -/
  | fit (i : Nat) (v : α)
  /-- Room for `n` elements was asked for. -/
  | reserve (n : Nat)
  deriving DecidableEq, Repr

/-- The number of slots a growth needs. -/
def Growth.required {α : Type} : Growth α → Nat
  | fit i _ => i + 1
  | reserve n => n

/-- The stores an array has had, the oldest first. The last one is current. A store is named by its
place in the history, so a thread may still hold the name of one that was replaced. -/
structure Stores (α : Type) where
  history : Array (Store α)
  deriving DecidableEq, Repr

namespace Stores

variable {α : Type}

/-- The history of an array with one store. -/
def single (s : Store α) : Stores α := ⟨#[s]⟩

/-- The name of the current store. -/
def current (s : Stores α) : Nat := s.history.size - 1

/-- The number of slots of a store. -/
def capacityOf (s : Stores α) (p : Nat) : Nat := (s.history[p]?.map Store.capacity).getD 0

/-- The number of slots of the current store. -/
def capacity (s : Stores α) : Nat := s.capacityOf s.current

/-- What a slot of a store holds. -/
def get? (s : Stores α) (p i : Nat) : Option α := s.history[p]?.bind (·.get? i)

/-- Overwrites a slot of a store; past its end nothing changes. -/
def set (s : Stores α) (p i : Nat) (v : α) : Stores α := ⟨s.history.modify p (·.set i v)⟩

/-- Makes a store the current one. -/
def publish (s : Stores α) (new : Store α) : Stores α := ⟨s.history.push new⟩

/-- The current store. -/
def latest (s : Stores α) : Store α := s.history.back?.getD ⟨#[]⟩

end Stores

/-- What a thread does with a slot of a store, and what it is answered. -/
def Access.perform {α : Type} (a : Access α) (s : Stores α) (p i : Nat) :
    Option (Stores α × Answer α) :=
  match s.get? p i with
  | none => none
  | some old =>
    match a with
    | .load => some (s, .value old)
    | .store v => some (s.set p i v, .done)

end Growable.SharedArray
