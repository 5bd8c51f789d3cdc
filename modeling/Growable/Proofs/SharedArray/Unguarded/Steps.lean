import Growable.Proofs.SharedArray.Gated.Calls
import Growable.SharedArray.Unguarded

/-!
# The steps of an unguarded array

What a step of a thread can do, case by case: what the thread found when it looked, what it changed
and what it goes on with. All that is kept by steps is shown by these cases.
-/

namespace Growable.SharedArray

namespace Stores

variable {α : Type} {s s' s'' : Stores α} {n p i : Nat} {v : α}

theorem size_set (s : Stores α) (p i : Nat) (v : α) :
    (s.set p i v).history.size = s.history.size := by
  simp [set]

theorem size_publish (s : Stores α) (st : Store α) :
    (s.publish st).history.size = s.history.size + 1 := by
  simp [publish]

theorem current_publish (s : Stores α) (st : Store α) :
    (s.publish st).current = s.history.size := by
  rw [current, size_publish, Nat.add_sub_cancel]

theorem capacityOf_set (s : Stores α) (p i : Nat) (v : α) (n : Nat) :
    (s.set p i v).capacityOf n = s.capacityOf n := by
  rw [capacityOf_eq, capacities_set, capacityOf_eq]

theorem capacityOf_publish_of_lt (st : Store α) (h : n < s.history.size) :
    (s.publish st).capacityOf n = s.capacityOf n := by
  unfold capacityOf publish
  rw [Array.getElem?_push_lt h, Array.getElem?_eq_getElem h]

theorem capacityOf_publish_self (s : Stores α) (st : Store α) :
    (s.publish st).capacityOf s.history.size = st.capacity := by
  simp [capacityOf, publish]

theorem capacityOf_of_le (h : s.history.size ≤ n) : s.capacityOf n = 0 := by
  rw [capacityOf, Array.getElem?_eq_none h]
  rfl

theorem lt_of_get? (h : s.get? p i = some v) : i < s.capacityOf p := by
  by_contra hnot
  rw [get?_eq_none_iff.mpr (Nat.not_lt.mp hnot)] at h
  cases h

/-- Nothing is put into a slot that a store does not have. -/
theorem set_of_le (h : s.capacityOf p ≤ i) (v : α) : s.set p i v = s := by
  unfold set
  congr 1
  apply Array.ext_getElem?
  intro j
  rw [Array.getElem?_modify]
  split
  · rename_i hpj
    subst hpj
    cases hst : s.history[p]? with
    | none => rfl
    | some st =>
      rw [capacityOf, hst] at h
      have hle : st.slots.size ≤ i := h
      simp [Store.set, Array.setIfInBounds, Nat.not_lt.mpr hle]
  · rfl

end Stores

namespace Unguarded

variable {α : Type} [Inhabited α]

/-- What a step of a thread does at each task. -/
inductive Steps (s : Shared α) : Task α → Shared α → Task α → Prop
  | rest (last? : Option (Answer α)) : Steps s (.rest last?) s (.rest last?)
  | length : Steps s .length s (.answer (.count s.length))
  | measure : Steps s .measure s (.answer (.count s.stores.capacity))
  | begin (v : α) : s.length < s.maxCapacity →
      Steps s (.placeLength v) s (.placePointer s.length v)
  | full (v : α) : s.maxCapacity ≤ s.length →
      Steps s (.placeLength v) s (.answer (.full s.limits s.length s.maxCapacity))
  | placePointer (i : Nat) (v : α) :
      Steps s (.placePointer i v) s (.placeSlot i v s.stores.current)
  | place {i p : Nat} (v : α) : i < s.stores.capacityOf p →
      Steps s (.placeSlot i v p) { s with stores := s.stores.set p i v } (.raise i)
  | noSlot {i p : Nat} (v : α) : s.stores.capacityOf p ≤ i →
      Steps s (.placeSlot i v p) s (.growPointer (.fit i v))
  | room {g : Growth α} : g.required ≤ s.stores.capacity →
      Steps s (.growPointer g) s (.afterGrowth g)
  | noRoom {g : Growth α} : s.stores.capacity < g.required → s.maxCapacity < g.required →
      Steps s (.growPointer g) s (.answer (.refused (.capacityOverflow g.required s.maxCapacity)))
  | grow {g : Growth α} {new : Nat} : s.stores.capacity < g.required →
      capacityFor s.stores.capacity g.required s.maxCapacity = .ok new → s.limits.holds new = true →
      Steps s (.growPointer g) { s with journal := .growing s.stores.capacity new :: s.journal }
        (.copy g s.stores.current new #[])
  | overflow {g : Growth α} {new : Nat} :
      ¬ s.limits.Admits s.stores.capacity g.required s.maxCapacity →
      Steps s (.growPointer g) { s with journal := .growing s.stores.capacity new :: s.journal }
        (.answer .overflowed)
  | copy {p : Nat} {buffer : Array α} {v : α} (g : Growth α) (target : Nat) :
      s.stores.get? p buffer.size = some v →
      Steps s (.copy g p target buffer) s (.copy g p target (buffer.push v))
  | copied {p : Nat} {buffer : Array α} (g : Growth α) (target : Nat) :
      s.stores.capacityOf p ≤ buffer.size →
      Steps s (.copy g p target buffer) s (.publish g target buffer)
  | publish (g : Growth α) (target : Nat) (buffer : Array α) : Steps s (.publish g target buffer)
      { s with stores := s.stores.publish (.ofValues buffer target) }
      (.listEnter g s.stores.current .out)
  | see (g : Growth α) (p : Nat) : s.listTaken = false →
      Steps s (.listEnter g p .out) s (.listEnter g p .swap)
  | wait {place : Lock.Spin.Place} (g : Growth α) (p : Nat) : s.listTaken = true →
      place ≠ .inside → Steps s (.listEnter g p place) s (.listEnter g p .out)
  | take (g : Growth α) (p : Nat) : s.listTaken = false →
      Steps s (.listEnter g p .swap) { s with listTaken := true } (.listPush g p)
  | inside (g : Growth α) (p : Nat) : Steps s (.listEnter g p .inside) s (.listPush g p)
  | push (g : Growth α) (p : Nat) :
      Steps s (.listPush g p) { s with replaced := p :: s.replaced } (.listLeave g)
  | leave (g : Growth α) : Steps s (.listLeave g) { s with listTaken := false } (.afterGrowth g)
  | fitPointer (i : Nat) (v : α) : Steps s (.fitPointer i v) s (.fitSlot i v s.stores.current)
  | fit {i p : Nat} (v : α) : i < s.stores.capacityOf p →
      Steps s (.fitSlot i v p) { s with stores := s.stores.set p i v } (.raise i)
  | lose {i p : Nat} (v : α) : s.stores.capacityOf p ≤ i → Steps s (.fitSlot i v p) s (.raise i)
  | raise (i : Nat) : Steps s (.raise i) { s with length := i + 1 } (.answer (.index i))
  | inBounds {i : Nat} (a : Access α) : i < s.length →
      Steps s (.accessLength i a) s (.accessPointer i a s.length)
  | outOfBounds {i : Nat} (a : Access α) : s.length ≤ i →
      Steps s (.accessLength i a) s (.answer (.refused (.indexOutOfBounds i s.length)))
  | accessPointer (i : Nat) (a : Access α) (len : Nat) :
      Steps s (.accessPointer i a len) s (.accessSlot i a len s.stores.current)
  | load {i p : Nat} {v : α} (len : Nat) : s.stores.get? p i = some v →
      Steps s (.accessSlot i .load len p) s (.answer (.value v))
  | store {i p : Nat} (v : α) (len : Nat) : i < s.stores.capacityOf p →
      Steps s (.accessSlot i (.store v) len p) { s with stores := s.stores.set p i v }
        (.answer .done)
  | beyond {i p : Nat} (a : Access α) (len : Nat) : s.stores.capacityOf p ≤ i →
      Steps s (.accessSlot i a len p) s (.answer (.refused (.indexOutOfBounds i len)))
  | collectPointer : Steps s .collectPointer s (.collectLength s.stores.current)
  | collectLength (p : Nat) :
      Steps s (.collectLength p) s (.collect p (min s.length (s.stores.capacityOf p)) #[])
  | collect {p n : Nat} {buffer : Array α} {v : α} : buffer.size < n →
      s.stores.get? p buffer.size = some v →
      Steps s (.collect p n buffer) s (.collect p n (buffer.push v))
  | breakOff {p n : Nat} {buffer : Array α} : buffer.size < n →
      s.stores.capacityOf p ≤ buffer.size → Steps s (.collect p n buffer) s (.answer .brokenOff)
  | collected {p n : Nat} {buffer : Array α} : n ≤ buffer.size →
      Steps s (.collect p n buffer) s (.answer (.values buffer))

theorem steps_growPointer (s : Shared α) (g : Growth α) :
    Steps s (.growPointer g) (step s (.growPointer g)).1 (step s (.growPointer g)).2 := by
  simp only [step]
  split
  · rename_i hroom
    exact .room hroom
  · rename_i hnot
    split
    · rename_i e he
      obtain ⟨hlt, rfl⟩ := error_of_capacityFor he
      exact .noRoom (Nat.not_le.mp hnot) hlt
    · rename_i new hnew
      dsimp only
      split
      · rename_i hholds
        exact .grow (Nat.not_le.mp hnot) hnew hholds
      · rename_i hholds
        exact .overflow fun hadmits => hholds (hadmits (Nat.not_le.mp hnot) new hnew)

theorem steps_listEnter (s : Shared α) (g : Growth α) (p : Nat) (place : Lock.Spin.Place) :
    Steps s (.listEnter g p place) (step s (.listEnter g p place)).1
      (step s (.listEnter g p place)).2 := by
  rcases s with ⟨stores, length, listTaken, replaced, maxCapacity, limits, journal⟩
  cases place with
  | out =>
    cases listTaken with
    | false => exact .see g p rfl
    | true => exact .wait g p rfl (by decide)
  | swap =>
    cases listTaken with
    | false => exact .take g p rfl
    | true => exact .wait g p rfl (by decide)
  | inside => exact .inside g p

theorem steps_accessSlot (s : Shared α) (i : Nat) (a : Access α) (len p : Nat) :
    Steps s (.accessSlot i a len p) (step s (.accessSlot i a len p)).1
      (step s (.accessSlot i a len p)).2 := by
  cases hold : s.stores.get? p i with
  | none =>
    simp only [step, Access.perform, hold]
    exact .beyond a len (Stores.get?_eq_none_iff.mp hold)
  | some old =>
    cases a with
    | load =>
      simp only [step, Access.perform, hold]
      exact .load len hold
    | store v =>
      simp only [step, Access.perform, hold]
      exact .store v len (Stores.lt_of_get? hold)

theorem steps (s : Shared α) (k : Task α) : Steps s k (step s k).1 (step s k).2 := by
  cases k with
  | rest last? => exact .rest last?
  | length => exact .length
  | measure => exact .measure
  | placeLength v =>
    simp only [step]
    split
    · rename_i hlt
      exact .begin v hlt
    · rename_i hnot
      exact .full v (Nat.not_lt.mp hnot)
  | placePointer i v => exact .placePointer i v
  | placeSlot i v p =>
    simp only [step]
    split
    · rename_i hlt
      exact .place v hlt
    · rename_i hnot
      exact .noSlot v (Nat.not_lt.mp hnot)
  | growPointer g => exact steps_growPointer s g
  | copy g p target buffer =>
    simp only [step]
    split
    · rename_i v hv
      exact .copy g target hv
    · rename_i hnone
      exact .copied g target (Stores.get?_eq_none_iff.mp hnone)
  | publish g target buffer => exact .publish g target buffer
  | listEnter g p place => exact steps_listEnter s g p place
  | listPush g p => exact .push g p
  | listLeave g => exact .leave g
  | fitPointer i v => exact .fitPointer i v
  | fitSlot i v p =>
    rcases Nat.lt_or_ge i (s.stores.capacityOf p) with hi | hi
    · exact .fit v hi
    · simp only [step, Stores.set_of_le hi]
      exact .lose v hi
  | raise i => exact .raise i
  | accessLength i a =>
    simp only [step]
    rcases Nat.lt_or_ge i s.length with hi | hi
    · rw [checkBounds_eq_ok_iff.mpr hi]
      exact .inBounds a hi
    · rw [checkBounds_of_le hi]
      exact .outOfBounds a hi
  | accessPointer i a len => exact .accessPointer i a len
  | accessSlot i a len p => exact steps_accessSlot s i a len p
  | collectPointer => exact .collectPointer
  | collectLength p => exact .collectLength p
  | collect p n buffer =>
    simp only [step]
    split
    · rename_i hlt
      split
      · rename_i v hv
        exact .collect hlt hv
      · rename_i hnone
        exact .breakOff hlt (Stores.get?_eq_none_iff.mp hnone)
    · rename_i hnot
      exact .collected (Nat.not_lt.mp hnot)

end Unguarded

end Growable.SharedArray
