import Growable.Lock.Spin
import Growable.SharedArray.Call

/-!
# The unguarded strategy

Nothing keeps threads apart here: the length, the name of the current store and the slots are
loaded and stored one by one. One thread at a time gets the answers of a growable array. Several
threads may lose one another's elements, but each access is checked against the store it reaches.

A store that was replaced may still be used by a thread that loaded its name before, so it is not
given up at once. It goes on a list, under a spin lock, and is given back when the array is
reclaimed by its only user.
-/

namespace Growable.SharedArray.Unguarded

open Lock (Spin.Place)

/-- An unguarded array. -/
structure Shared (α : Type) where
  stores : Stores α
  length : Nat
  /-- The bit of the lock on the list of replaced stores. -/
  listTaken : Bool := false
  /-- The names of the replaced stores, the latest first. -/
  replaced : List Nat := []
  maxCapacity : Nat
  limits : Limits := {}
  /-- Records of work done, the latest first. -/
  journal : List Record := []

/-- What a thread is doing. -/
inductive Task (α : Type) where
  /-- Nothing; the last call, if there was one, was answered so. -/
  | rest (last? : Option (Answer α))
  /-- Loads the length for an answer. -/
  | length
  /-- Loads the current store's name for its capacity. -/
  | measure
  /-- Append: loads the length. -/
  | placeLength (v : α)
  /-- Append: loads the current store's name. -/
  | placePointer (i : Nat) (v : α)
  /-- Append: stores into slot `i` of store `p`. -/
  | placeSlot (i : Nat) (v : α) (p : Nat)
  /-- Growth: loads the current store's name, and compares its capacity with what is needed. -/
  | growPointer (g : Growth α)
  /-- Growth: loads the next slot of store `p` into the buffer. -/
  | copy (g : Growth α) (p target : Nat) (buffer : Array α)
  /-- Growth: makes the buffer the current store. -/
  | publish (g : Growth α) (target : Nat) (buffer : Array α)
  /-- Growth: takes the lock on the list for the replaced store `p`. -/
  | listEnter (g : Growth α) (p : Nat) (place : Spin.Place)
  /-- Growth: puts the replaced store `p` on the list. -/
  | listPush (g : Growth α) (p : Nat)
  /-- Growth: releases the lock on the list. -/
  | listLeave (g : Growth α)
  /-- Append, after growth: loads the current store's name. -/
  | fitPointer (i : Nat) (v : α)
  /-- Append, after growth: stores into slot `i` of store `p`, if it has one. -/
  | fitSlot (i : Nat) (v : α) (p : Nat)
  /-- Append: stores the new length. -/
  | raise (i : Nat)
  /-- Read or write: loads the length. -/
  | accessLength (i : Nat) (a : Access α)
  /-- Read or write: loads the current store's name. -/
  | accessPointer (i : Nat) (a : Access α) (len : Nat)
  /-- Read or write: accesses slot `i` of store `p`. -/
  | accessSlot (i : Nat) (a : Access α) (len p : Nat)
  /-- Copy: loads the current store's name. -/
  | collectPointer
  /-- Copy: loads the length. -/
  | collectLength (p : Nat)
  /-- Copy: loads the next of `n` slots of store `p`. -/
  | collect (p n : Nat) (buffer : Array α)

namespace Task

variable {α : Type}

/-- The thread rests. -/
def rests : Task α → Bool
  | rest _ => true
  | _ => false

/-- The answer to the last call, once there is one. -/
def reply? : Task α → Option (Answer α)
  | rest last? => last?
  | _ => none

/-- The call is answered. -/
def answer (a : Answer α) : Task α := rest (some a)

/-- The first step of a call. -/
def ofCall : Call α → Task α
  | .append v => placeLength v
  | .read i => accessLength i .load
  | .write i v => accessLength i (.store v)
  | .ensureCapacity n => growPointer (.reserve n)
  | .toArray => collectPointer
  | .length => length
  | .capacity => measure

/-- What comes after a growth. -/
def afterGrowth : Growth α → Task α
  | .fit i v => fitPointer i v
  | .reserve _ => answer .done

end Task

variable {α : Type} [Inhabited α]

/-- One step of a thread. -/
def step (s : Shared α) : Task α → Shared α × Task α
  | .rest last? => (s, .rest last?)
  | .length => (s, .answer (.count s.length))
  | .measure => (s, .answer (.count s.stores.capacity))
  | .placeLength v =>
    (s, if s.length < s.maxCapacity then .placePointer s.length v
        else .answer (.full s.limits s.length s.maxCapacity))
  | .placePointer i v => (s, .placeSlot i v s.stores.current)
  | .placeSlot i v p =>
    if i < s.stores.capacityOf p then ({ s with stores := s.stores.set p i v }, .raise i)
    else (s, .growPointer (.fit i v))
  | .growPointer g =>
    let old := s.stores.capacity
    if g.required ≤ old then (s, .afterGrowth g)
    else
      match capacityFor old g.required s.maxCapacity with
      | .error e => (s, .answer (.refused e))
      | .ok new =>
        ({ s with journal := .growing old new :: s.journal },
          if s.limits.holds new then .copy g s.stores.current new #[] else .answer .overflowed)
  | .copy g p target buffer =>
    match s.stores.get? p buffer.size with
    | some v => (s, .copy g p target (buffer.push v))
    | none => (s, .publish g target buffer)
  | .publish g target buffer =>
    ({ s with stores := s.stores.publish (.ofValues buffer target) },
      .listEnter g s.stores.current .out)
  | .listEnter g p place =>
    let r := Lock.Spin.seek s.listTaken place
    ({ s with listTaken := r.1 }, if r.2 = .inside then .listPush g p else .listEnter g p r.2)
  | .listPush g p => ({ s with replaced := p :: s.replaced }, .listLeave g)
  | .listLeave g => ({ s with listTaken := false }, .afterGrowth g)
  | .fitPointer i v => (s, .fitSlot i v s.stores.current)
  | .fitSlot i v p => ({ s with stores := s.stores.set p i v }, .raise i)
  | .raise i => ({ s with length := i + 1 }, .answer (.index i))
  | .accessLength i a =>
    (s, match checkBounds i s.length with
      | .ok _ => .accessPointer i a s.length
      | .error e => .answer (.refused e))
  | .accessPointer i a len => (s, .accessSlot i a len s.stores.current)
  | .accessSlot i a len p =>
    match a.perform s.stores p i with
    | some (stores, r) => ({ s with stores }, .answer r)
    | none => (s, .answer (.refused (.indexOutOfBounds i len)))
  | .collectPointer => (s, .collectLength s.stores.current)
  | .collectLength p => (s, .collect p (min s.length (s.stores.capacityOf p)) #[])
  | .collect p n buffer =>
    if buffer.size < n then
      match s.stores.get? p buffer.size with
      | some v => (s, .collect p n (buffer.push v))
      | none => (s, .answer .brokenOff)
    else (s, .answer (.values buffer))

/-- The machine of threads that use an unguarded array. -/
def machine (α : Type) [Inhabited α] : Machine (Shared α) (Task α) (Call α) (Answer α) where
  start c _ := .ofCall c
  step _ _ := step
  rests := Task.rests
  reply? := Task.reply?

/-- An array around a store that holds `len` elements. -/
def ofStore (store : Store α) (len : Nat) (config : Config) (limits : Limits := {}) :
    Shared α where
  stores := .single store
  length := len
  maxCapacity := config.maxCapacity
  limits := limits

/-- As many steps as a call needs of a thread by itself. -/
def fuel (s : Shared α) : Nat := 32 + s.stores.capacity

/-- The only user gives back the replaced stores; their number. -/
def reclaim (s : Shared α) : Shared α × Nat :=
  let n := s.replaced.length
  ({ s with
      replaced := []
      journal := if n = 0 then s.journal else .freed n :: s.journal }, n)

end Growable.SharedArray.Unguarded
