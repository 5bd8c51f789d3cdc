import Growable.Error

/-!
# Stores

A store is a block of slots whose number never changes. To grow is to copy a store into a larger
one, and `capacityFor` is the rule for how large: at least double, at least sixteen, and never more
than is allowed. Whether the machine has room for so large a store is a matter of its `Limits`.
-/

namespace Growable

/-- A block of slots. -/
structure Store (α : Type) where
  slots : Array α
  deriving DecidableEq, Repr

namespace Store

variable {α : Type}

/-- The number of slots. -/
def capacity (s : Store α) : Nat := s.slots.size

/-- Slots that hold the default. -/
def ofCapacity [Inhabited α] (capacity : Nat) : Store α := ⟨Array.replicate capacity default⟩

/-- Slots that hold the values, and the default up to `capacity`. -/
def ofValues [Inhabited α] (values : Array α) (capacity : Nat) : Store α :=
  ⟨values ++ Array.replicate (capacity - values.size) default⟩

/-- What a slot holds. -/
def get? (s : Store α) (i : Nat) : Option α := s.slots[i]?

/-- Overwrites a slot; past the end nothing changes. -/
def set (s : Store α) (i : Nat) (v : α) : Store α := ⟨s.slots.setIfInBounds i v⟩

/-- A copy with default slots added up to `capacity`. It is for whoever asks for the copy to see
that `Limits.holds` allows it. -/
def grown [Inhabited α] (s : Store α) (capacity : Nat) : Store α := ofValues s.slots capacity

/-- What the first `len` slots hold, or all of them if there are fewer. -/
def take (s : Store α) (len : Nat) : Array α := s.slots.extract 0 len

/-- The text that shows a store in a log. -/
def toLogText (s : Store α) : String := s!"BackingStore \x7b capacity: {s.capacity} \x7d"

@[simp] theorem capacity_set (s : Store α) (i : Nat) (v : α) : (s.set i v).capacity = s.capacity := by
  simp [capacity, set]

@[simp] theorem capacity_ofCapacity [Inhabited α] (n : Nat) :
    (ofCapacity n : Store α).capacity = n := by
  simp [capacity, ofCapacity]

@[simp] theorem capacity_ofValues [Inhabited α] (values : Array α) (n : Nat) :
    (ofValues values n).capacity = max n values.size := by
  simp [capacity, ofValues]
  omega

@[simp] theorem capacity_grown [Inhabited α] (s : Store α) (n : Nat) :
    (s.grown n).capacity = max n s.capacity :=
  capacity_ofValues s.slots n

theorem get?_set_self (s : Store α) {i : Nat} (v : α) (h : i < s.capacity) :
    (s.set i v).get? i = some v := by
  simp [get?, set, Array.getElem?_setIfInBounds_self_of_lt h]

theorem get?_set_of_ne (s : Store α) {i j : Nat} (v : α) (h : i ≠ j) :
    (s.set i v).get? j = s.get? j := by
  simp [get?, set, Array.getElem?_setIfInBounds_ne h]

theorem get?_grown_of_lt [Inhabited α] (s : Store α) {i : Nat} (n : Nat) (h : i < s.capacity) :
    (s.grown n).get? i = s.get? i := by
  simp only [capacity] at h
  simp [get?, grown, ofValues, Array.getElem?_append, h]

end Store

/-! ## How much to grow -/

/-- The smallest capacity a store grows to. -/
def minGrowth : Nat := 16

/-- The largest size. -/
def maxSize : Nat := UInt64.size - 1

/-- The capacity to grow to from `current` slots when `required` are needed and `allowed` are
allowed. -/
def capacityFor (current required allowed : Nat) : Except Error Nat :=
  if allowed < required then .error (.capacityOverflow required allowed)
  else .ok (min allowed (max (max minGrowth (min maxSize (2 * current))) required))

theorem capacityFor_eq_error_iff {current required allowed : Nat} :
    capacityFor current required allowed = .error (.capacityOverflow required allowed) ↔
      allowed < required := by
  unfold capacityFor
  split <;> simp_all

theorem le_of_capacityFor {current required allowed n : Nat}
    (h : capacityFor current required allowed = .ok n) : required ≤ n ∧ n ≤ allowed := by
  unfold capacityFor at h
  split at h
  · cases h
  · cases h
    omega

/-! ## What the machine allows -/

/-- What one more than the largest size comes to. -/
inductive Carry where
  /-- A size like any other: sizes have no end. -/
  | keeps
  /-- Zero. -/
  | wraps
  /-- Nothing: the call that computes it is broken off. -/
  | breaksOff
  deriving DecidableEq, Repr

/-- What the machine sets limits to. Without any, stores of every size can be made, and sizes have
no end. A store within the limits is taken to be made: where there is no memory left for it the
whole program ends, and nobody is there to be answered. -/
structure Limits where
  /-- The most slots of a store, if there is a bound. -/
  maxSlots? : Option Nat := none
  carry : Carry := .keeps
  deriving DecidableEq, Repr

namespace Limits

/-- The most bytes of a store. -/
def maxBytes : Nat := UInt64.size / 2 - 1

/-- The limits for slots of so many bytes. -/
def ofSlotBytes (bytes : Nat) (carry : Carry) : Limits := ⟨some (maxBytes / bytes), carry⟩

/-- A store of `n` slots can be made. -/
def holds (l : Limits) (n : Nat) : Bool := l.maxSlots?.all (n ≤ ·)

/-- One more than `n`, where that can be computed. -/
def succ? (l : Limits) (n : Nat) : Option Nat :=
  if n < maxSize then some (n + 1)
  else
    match l.carry with
    | .keeps => some (n + 1)
    | .wraps => some ((n + 1) % UInt64.size)
    | .breaksOff => none

/-- Where `required` slots are needed there are as many already, or more are needed than are
allowed, or a store of the capacity to grow to can be made. -/
def Admits (l : Limits) (current required allowed : Nat) : Prop :=
  current < required → ∀ n, capacityFor current required allowed = .ok n → l.holds n = true

/-- Nothing up to `n` comes to a limit. -/
structure Suffices (l : Limits) (n : Nat) : Prop where
  holds : l.holds n = true
  carry : n < maxSize ∨ l.carry = .keeps

variable {l : Limits} {m n current required allowed : Nat}

theorem suffices_default (n : Nat) : Suffices {} n := ⟨rfl, .inr rfl⟩

theorem holds_of_le (h : l.holds n = true) (hm : m ≤ n) : l.holds m = true := by
  unfold holds at *
  cases hmax : l.maxSlots? with
  | none => rfl
  | some bound =>
    rw [hmax] at h
    exact decide_eq_true (Nat.le_trans hm (of_decide_eq_true h))

theorem Suffices.mono (h : l.Suffices n) (hm : m ≤ n) : l.Suffices m :=
  ⟨holds_of_le h.holds hm, h.carry.imp_left (Nat.lt_of_le_of_lt hm)⟩

theorem Suffices.succ? (h : l.Suffices n) : l.succ? n = some (n + 1) := by
  unfold Limits.succ?
  split
  · rfl
  · rw [h.carry.resolve_left ‹_›]

/-- Where a store of all slots that are allowed can be made, every growth can. -/
theorem admits_of_holds (h : l.holds allowed = true) : l.Admits current required allowed :=
  fun _ _ hn => holds_of_le h (le_of_capacityFor hn).2

theorem lt_of_not_admits (h : ¬ l.Admits current required allowed) : current < required :=
  Nat.lt_of_not_le fun hle => h fun hlt => absurd hlt (Nat.not_lt.mpr hle)

/-- A growth that cannot be made cannot be made after another growth either, and none that needs
more can. -/
theorem Admits.of_grown {required' grown : Nat}
    (hgrown : capacityFor current required allowed = .ok grown) (hholds : l.holds grown = true)
    (h : l.Admits grown required' allowed) : l.Admits current required' allowed := by
  intro hlt n hn
  unfold capacityFor at hgrown hn
  split at hgrown
  · cases hgrown
  · split at hn
    · cases hn
    · cases hgrown
      cases hn
      rename_i hallowed
      by_cases hmore : min allowed (max (max minGrowth (min maxSize (2 * current))) required) <
          required'
      · refine holds_of_le (h hmore _ (if_neg hallowed)) ?_
        omega
      · refine holds_of_le hholds ?_
        omega

theorem Admits.mono {required' : Nat} (h : l.Admits current required' allowed)
    (hle : required ≤ required') (hallowed : required' ≤ allowed) :
    l.Admits current required allowed := by
  intro hlt n hn
  refine holds_of_le (h (by omega) _ (if_neg (by omega))) ?_
  unfold capacityFor at hn
  split at hn
  · cases hn
  · cases hn
    omega

end Limits

end Growable
