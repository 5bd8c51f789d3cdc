import Growable.Proofs.SharedArray.Gated.Stance
import Growable.Proofs.SharedArray.Parts

/-!
# What a thread inside has found out

A thread inside keeps the name of a store, or a part of its slots, for several steps. It may, since
only a thread in exclusive mode makes another store current, and then no other is inside. So every
slot is stored to in the store that is current at that moment, and a growth carries over every slot
as it is.
-/

namespace Growable.SharedArray

/-! ## The current store -/

namespace Stores

variable {α : Type}

/-- What a slot of the current store holds. -/
def slot? (s : Stores α) (i : Nat) : Option α := s.get? s.current i

/-- There is a current store. -/
def Live (s : Stores α) : Prop := ∃ st, s.Ends st

variable {s : Stores α} {i : Nat} {v : α}

theorem live_single (st : Store α) : (single st).Live := ⟨st, ends_single st⟩

theorem live_publish (s : Stores α) (st : Store α) : (s.publish st).Live := ⟨st, ends_publish s st⟩

theorem slot?_single (st : Store α) (i : Nat) : (single st).slot? i = st.get? i :=
  (ends_single st).get? i

theorem slot?_publish (s : Stores α) (st : Store α) (i : Nat) :
    (s.publish st).slot? i = st.get? i :=
  (ends_publish s st).get? i

theorem capacity_publish (s : Stores α) (st : Store α) :
    (s.publish st).capacity = st.capacity :=
  (ends_publish s st).capacity

namespace Live

theorem set (h : s.Live) (i : Nat) (v : α) : (s.set s.current i v).Live := by
  obtain ⟨st, hst⟩ := h
  exact ⟨_, hst.set i v⟩

theorem capacity_set (h : s.Live) (i : Nat) (v : α) :
    (s.set s.current i v).capacity = s.capacity := by
  obtain ⟨st, hst⟩ := h
  rw [(hst.set i v).capacity, Store.capacity_set, hst.capacity]

theorem slot?_set_self (h : s.Live) (hi : i < s.capacity) :
    (s.set s.current i v).slot? i = some v := by
  obtain ⟨st, hst⟩ := h
  rw [hst.capacity] at hi
  rw [slot?, (hst.set i v).get?, Store.get?_set_self _ _ hi]

theorem slot?_set_of_ne (h : s.Live) {j : Nat} (hij : i ≠ j) :
    (s.set s.current i v).slot? j = s.slot? j := by
  obtain ⟨st, hst⟩ := h
  rw [slot?, (hst.set i v).get?, Store.get?_set_of_ne _ _ hij, slot?, hst.get?]

theorem slot?_eq_none_iff (h : s.Live) : s.slot? i = none ↔ s.capacity ≤ i := by
  obtain ⟨st, hst⟩ := h
  rw [slot?, hst.get?, hst.capacity, Store.get?, Store.capacity, Array.getElem?_eq_none_iff]

end Live

end Stores

namespace Gated

open Lock (Gate Mode)

variable {G : Gate} {α : Type}

/-! ## Knowledge -/

/-- A growth of the current store to `target` slots is due: so many are needed, are allowed and can
be made. -/
structure Due (s : Stores α) (limits : Limits) (allowed required target : Nat) : Prop where
  lt : s.capacity < required
  next : capacityFor s.capacity required allowed = .ok target
  holds : limits.holds target = true

/-- What a thread has found out by the time of a task is so. -/
def Task.Knows (s : Stores α) (limits : Limits) (allowed : Nat) : Task G α → Prop
  | .placeSlot _ _ p | .accessSlot _ _ p | .collectLength p => p = s.current
  | .collect p n _ => p = s.current ∧ n ≤ s.capacity
  | .copy g p target buffer => p = s.current ∧ Due s limits allowed g.required target ∧
    ∀ j < buffer.size, buffer[j]? = s.slot? j
  | .publish g target buffer => Due s limits allowed g.required target ∧
    ∀ j, buffer[j]? = s.slot? j
  | .fitPointer i _ => i < s.capacity
  | .fitSlot i _ p => p = s.current ∧ i < s.capacity
  | _ => True

theorem Due.required_le {s : Stores α} {limits : Limits} {allowed required target : Nat}
    (h : Due s limits allowed required target) : required ≤ target :=
  (le_of_capacityFor h.next).1

theorem Due.target_le {s : Stores α} {limits : Limits} {allowed required target : Nat}
    (h : Due s limits allowed required target) : target ≤ allowed :=
  (le_of_capacityFor h.next).2

theorem Due.capacity_lt {s : Stores α} {limits : Limits} {allowed required target : Nat}
    (h : Due s limits allowed required target) : s.capacity < target :=
  Nat.lt_of_lt_of_le h.lt h.required_le

theorem Task.knows_of_outside {s : Stores α} {limits : Limits} {allowed : Nat} {k : Task G α}
    (h : k.stance.isInside = false) : k.Knows s limits allowed := by
  cases k with
  | placeSlot | accessSlot | collectLength | collect | copy | publish | fitPointer | fitSlot =>
    cases h
  | _ => trivial

/-- The slot a task stores to, and what. -/
def Task.writes? : Task G α → Option (Nat × α)
  | .placeSlot i v _ | .fitSlot i v _ | .accessSlot i (.store v) _ => some (i, v)
  | _ => none

theorem Task.isInside_of_writes? {k : Task G α} {w : Nat × α} (h : k.writes? = some w) :
    k.stance.isInside = true := by
  cases k with
  | placeSlot | fitSlot | accessSlot => rfl
  | _ => cases h

/-- What a step does to the stores. -/
inductive Storing [Inhabited α] (s : Stores α) (limits : Limits) (allowed : Nat) (k : Task G α) :
    Stores α → Prop
  | same : Storing s limits allowed k s
  | write {i : Nat} {v : α} : k.writes? = some (i, v) → i < s.capacity →
      Storing s limits allowed k (s.set s.current i v)
  | grow {required target : Nat} {buffer : Array α} : k.stance = .holding .exclusive →
      Due s limits allowed required target → (∀ j, buffer[j]? = s.slot? j) →
      Storing s limits allowed k (s.publish (.ofValues buffer target))

/-- The stores, and what all threads have found out of them. -/
structure Informed (p : Pool (Shared G α) (Client G α)) : Prop where
  live : p.shared.stores.Live
  knows : ∀ {t : Nat} {c : Client G α}, p.threads[t]? = some c →
    c.task.Knows p.shared.stores p.shared.limits p.shared.maxCapacity

/-- Slot `i` is not there, and the machine has no room for the growth that would make it. -/
def Shared.Lost (s : Shared G α) (i : Nat) : Prop :=
  ¬ s.limits.Admits s.stores.capacity (i + 1) s.maxCapacity

theorem Shared.Lost.capacity_le {s : Shared G α} {i : Nat} (h : s.Lost i) :
    s.stores.capacity ≤ i :=
  Nat.le_of_lt_succ (Limits.lt_of_not_admits h)

theorem Shared.not_lost {s : Shared G α} (h : s.limits.holds s.maxCapacity = true) (i : Nat) :
    ¬ s.Lost i :=
  fun hlost => hlost (Limits.admits_of_holds h)

section

variable {s s' : Stores α} {limits : Limits} {allowed : Nat} {k k' : Task G α}

theorem knows_ofReserved (v : α) (reserved maxCapacity : Nat) :
    (Task.ofReserved (G := G) limits v reserved maxCapacity).Knows s limits allowed := by
  unfold Task.ofReserved
  split <;> exact trivial

theorem knows_afterMeasure (need? : Option Nat) (found : Nat) :
    (Task.afterMeasure (G := G) need? found).Knows s limits allowed := by
  cases need? with
  | none => exact trivial
  | some n =>
    simp only [Task.afterMeasure]
    split <;> exact trivial

theorem knows_afterGrowth {g : Growth α} (h : g.required ≤ s.capacity) :
    (Task.afterGrowth (G := G) g).Knows s limits allowed := by
  cases g with
  | fit i v => exact h
  | reserve n => exact trivial

theorem knows_afterValid (i len : Nat) (v? : Option α) :
    (Task.afterValid (G := G) i len v?).Knows s limits allowed := by
  cases v? with
  | none => exact trivial
  | some v =>
    simp only [Task.afterValid]
    split <;> exact trivial

/-- A task that stays or goes on with `next` once a mode is granted. -/
theorem knows_enter {m : Mode} {luck : Bool} {next : Task G α} (s : Shared G α) {c : Client G α}
    (hnext : next.Knows s.stores s.limits s.maxCapacity)
    (hk : c.task.Knows s.stores s.limits s.maxCapacity) :
    (enter m luck next s c).2.task.Knows s.stores s.limits s.maxCapacity :=
  enter_task (P := fun k => k.Knows s.stores s.limits s.maxCapacity) hnext hk

variable [Inhabited α]

theorem capacity_grow {target : Nat} {buffer : Array α} (h : s.Live) (htarget : s.capacity < target)
    (hbuffer : ∀ j, buffer[j]? = s.slot? j) :
    (s.publish (.ofValues buffer target)).capacity = target := by
  have hsize : buffer.size ≤ s.capacity := by
    have hend := hbuffer s.capacity
    rw [h.slot?_eq_none_iff.mpr (Nat.le_refl _)] at hend
    exact Array.getElem?_eq_none_iff.mp hend
  rw [Stores.capacity_publish, Store.capacity_ofValues]
  omega

theorem slot?_grow {target j : Nat} {buffer : Array α} (h : s.Live)
    (hbuffer : ∀ j, buffer[j]? = s.slot? j) (hj : j < s.capacity) :
    (s.publish (.ofValues buffer target)).slot? j = s.slot? j := by
  have hlt : j < buffer.size := by
    rcases Nat.lt_or_ge j buffer.size with hlt | hge
    · exact hlt
    · have hnone := Array.getElem?_eq_none_iff.mpr hge
      rw [hbuffer j, h.slot?_eq_none_iff] at hnone
      omega
  rw [Stores.slot?_publish, ← hbuffer j]
  simp [Store.get?, Store.ofValues, Array.getElem?_append, hlt]

theorem Storing.live (h : Storing s limits allowed k s') (hlive : s.Live) : s'.Live := by
  cases h with
  | same => exact hlive
  | write => exact hlive.set _ _
  | grow => exact Stores.live_publish ..

/-- The current store never gets smaller. -/
theorem Storing.capacity_le (h : Storing s limits allowed k s') (hlive : s.Live) :
    s.capacity ≤ s'.capacity := by
  cases h with
  | same => exact Nat.le_refl _
  | write => exact Nat.le_of_eq (hlive.capacity_set _ _).symm
  | grow _ hdue hbuffer =>
    rw [capacity_grow hlive hdue.capacity_lt hbuffer]
    exact Nat.le_of_lt hdue.capacity_lt

/-- A slot that the machine has no room for is not there later either. -/
theorem Storing.lost {s s' : Shared G α} {i : Nat}
    (h : Storing s.stores s.limits s.maxCapacity k s'.stores) (hlive : s.stores.Live)
    (hlimits : s'.limits = s.limits) (hmax : s'.maxCapacity = s.maxCapacity) (hlost : s.Lost i) :
    s'.Lost i := by
  unfold Shared.Lost at *
  rw [hlimits, hmax]
  generalize s'.stores = stores at h
  cases h with
  | same => exact hlost
  | write =>
    rw [hlive.capacity_set]
    exact hlost
  | grow _ hdue hbuffer =>
    rw [capacity_grow hlive hdue.capacity_lt hbuffer]
    exact fun hadmits => hlost (hadmits.of_grown hdue.next hdue.holds)

/-- What one thread has found out stays so when another takes a step, unless the one is inside while
the other is in exclusive mode. -/
theorem Storing.knows (h : Storing s limits allowed k s') (hlive : s.Live)
    (hk : k'.Knows s limits allowed)
    (hgrow : k.stance = .holding .exclusive → k'.stance.isInside = false)
    (hgrown : k'.stance = .holding .exclusive → k.stance.isInside = false) :
    k'.Knows s' limits allowed := by
  cases h with
  | same => exact hk
  | @write i v hwrites hi =>
    have hinside := Task.isInside_of_writes? hwrites
    have hnot : k'.stance ≠ .holding .exclusive := by
      intro hexclusive
      rw [hgrown hexclusive] at hinside
      cases hinside
    have hcurrent := Stores.current_set s s.current i v
    have hcapacity := hlive.capacity_set i v
    cases k' with
    | placeSlot | accessSlot | collectLength =>
      exact Eq.trans hk hcurrent.symm
    | collect p n buffer => exact ⟨hk.1.trans hcurrent.symm, hcapacity ▸ hk.2⟩
    | copy | publish | fitPointer | fitSlot => exact absurd rfl hnot
    | _ => trivial
  | grow hexclusive => exact Task.knows_of_outside (hgrow hexclusive)

/-- A step stores where it may, and what the thread has found out by then is so. -/
theorem storing (luck : Bool) (s : Shared G α) (c : Client G α) (hlive : s.stores.Live)
    (hk : c.task.Knows s.stores s.limits s.maxCapacity) :
    Storing s.stores s.limits s.maxCapacity c.task (step luck s c).1.stores ∧
      (step luck s c).1.maxCapacity = s.maxCapacity ∧
      (step luck s c).2.task.Knows (step luck s c).1.stores s.limits s.maxCapacity := by
  rcases c with ⟨place, task⟩
  cases task with
  | measure need? =>
    simp only [step]
    split
    · exact ⟨.same, rfl, knows_afterMeasure need? _⟩
    · exact ⟨.same, rfl, knows_enter s trivial hk⟩
  | measureLeave need? found => exact ⟨.same, rfl, knows_afterMeasure need? _⟩
  | reserve v => exact ⟨.same, rfl, knows_ofReserved v _ _⟩
  | reserveSwap v seen =>
    simp only [step]
    split
    · exact ⟨.same, rfl, trivial⟩
    · exact ⟨.same, rfl, knows_ofReserved v _ _⟩
  | placeEnter i v => exact ⟨.same, rfl, knows_enter s trivial trivial⟩
  | placePointer i v => exact ⟨.same, rfl, rfl⟩
  | placeSlot i v p =>
    obtain rfl : p = s.stores.current := hk
    simp only [step]
    split
    · rename_i hi
      exact ⟨.write rfl hi, rfl, trivial⟩
    · exact ⟨.same, rfl, trivial⟩
  | placeLeave i v written => cases written <;> exact ⟨.same, rfl, trivial⟩
  | growEnter g => exact ⟨.same, rfl, knows_enter s trivial trivial⟩
  | growPointer g =>
    simp only [step]
    split
    · rename_i hroom
      exact ⟨.same, rfl, knows_afterGrowth hroom⟩
    · rename_i hroom
      split
      · exact ⟨.same, rfl, trivial⟩
      · rename_i new hnew
        dsimp only
        split
        · rename_i hholds
          refine ⟨.same, rfl, rfl, ⟨Nat.lt_of_not_le hroom, hnew, hholds⟩, ?_⟩
          intro j hj
          cases hj
        · exact ⟨.same, rfl, trivial⟩
  | copy g p target buffer =>
    obtain ⟨rfl, hdue, hbuffer⟩ := hk
    simp only [step]
    cases hv : s.stores.get? s.stores.current buffer.size with
    | some v =>
      refine ⟨.same, rfl, rfl, hdue, ?_⟩
      intro j hj
      rw [Array.size_push] at hj
      rw [Array.getElem?_push]
      split
      · rename_i hlast
        rw [hlast]
        exact hv.symm
      · exact hbuffer j (by omega)
    | none =>
      refine ⟨.same, rfl, hdue, ?_⟩
      intro j
      rcases Nat.lt_or_ge j buffer.size with hj | hj
      · exact hbuffer j hj
      · have hend := hlive.slot?_eq_none_iff.mp hv
        rw [Array.getElem?_eq_none_iff.mpr hj, hlive.slot?_eq_none_iff.mpr (by omega)]
  | publish g target buffer =>
    obtain ⟨hdue, hbuffer⟩ := hk
    refine ⟨.grow rfl hdue hbuffer, rfl, knows_afterGrowth ?_⟩
    rw [show (step luck s ⟨place, .publish g target buffer⟩).1.stores =
      s.stores.publish (.ofValues buffer target) from rfl,
      capacity_grow hlive hdue.capacity_lt hbuffer]
    exact hdue.required_le
  | fitPointer i v => exact ⟨.same, rfl, rfl, hk⟩
  | fitSlot i v p =>
    obtain ⟨rfl, hi⟩ := hk
    simp only [step]
    split
    · exact ⟨.write rfl hi, rfl, trivial⟩
    · exact ⟨.same, rfl, trivial⟩
  | growLeave g => cases g <;> exact ⟨.same, rfl, trivial⟩
  | await i =>
    simp only [step]
    split <;> exact ⟨.same, trivial, trivial⟩
  | tryStamp i left =>
    cases left with
    | zero => exact ⟨.same, rfl, trivial⟩
    | succ left =>
      simp only [step]
      split <;> exact ⟨.same, trivial, trivial⟩
  | tryValid i left stamp len v? =>
    simp only [step]
    split
    · exact ⟨.same, trivial, knows_afterValid i len v?⟩
    · exact ⟨.same, trivial, trivial⟩
  | accessEnter i a => exact ⟨.same, rfl, knows_enter s trivial trivial⟩
  | accessLength i a =>
    simp only [step]
    split <;> exact ⟨.same, trivial, trivial⟩
  | accessPointer i a => exact ⟨.same, rfl, rfl⟩
  | accessSlot i a p =>
    obtain rfl : p = s.stores.current := hk
    simp only [step, Access.perform]
    cases hold : s.stores.get? s.stores.current i with
    | none => exact ⟨.same, rfl, trivial⟩
    | some old =>
      cases a with
      | load => exact ⟨.same, rfl, trivial⟩
      | store v =>
        refine ⟨.write rfl ?_, rfl, trivial⟩
        rcases Nat.lt_or_ge i s.stores.capacity with hi | hi
        · exact hi
        · rw [← Stores.slot?, hlive.slot?_eq_none_iff.mpr hi] at hold
          cases hold
  | collectEnter => exact ⟨.same, rfl, knows_enter s trivial trivial⟩
  | collectPointer => exact ⟨.same, rfl, rfl⟩
  | collectLength p =>
    obtain rfl : p = s.stores.current := hk
    exact ⟨.same, rfl, rfl, Nat.min_le_right _ _⟩
  | collect p n buffer =>
    simp only [step]
    split
    · split
      · exact ⟨.same, rfl, hk⟩
      · exact ⟨.same, rfl, trivial⟩
    · exact ⟨.same, rfl, trivial⟩
  | _ => exact ⟨.same, rfl, trivial⟩

/-- No step changes the limits. -/
theorem limits_step (luck : Bool) (s : Shared G α) (c : Client G α) :
    (step luck s c).1.limits = s.limits := by
  rcases c with ⟨place, task⟩
  cases task with
  | measure | reserveSwap | placeSlot | copy | fitSlot | accessSlot =>
    simp only [step]
    split <;> rfl
  | growPointer =>
    simp only [step]
    split
    · rfl
    · split <;> rfl
  | collect =>
    simp only [step]
    split
    · split <;> rfl
    · rfl
  | tryStamp i left => cases left <;> rfl
  | _ => rfl

end

/-! ## In every run -/

section

variable {Fits : G.Word → List G.Place → Prop} {Toward : Mode → G.Place → Prop}
  {p : Pool (Shared G α) (Client G α)} {t : Nat} {c : Client G α}

theorem informed_idle (store : Store α) (len : Nat) (config : Config) (threads : Nat)
    (limits : Limits) : Informed (idle G store len config threads limits) := by
  refine ⟨Stores.live_single store, ?_⟩
  intro t c ht
  obtain rfl := idle_get? ht
  exact trivial

variable [Inhabited α]

theorem Informed.step (hG : G.Excludes Fits Toward) (horderly : Orderly Fits Toward p)
    (h : Informed p) (ht : p.threads[t]? = some c) (luck : Bool) :
    Informed (p.put t (step luck p.shared c).1 (step luck p.shared c).2) := by
  obtain ⟨hstoring, hmax, hknows⟩ := storing luck p.shared c h.live (h.knows ht)
  refine ⟨hstoring.live h.live, ?_⟩
  intro u d hu
  rw [Pool.shared_put, hmax, limits_step]
  rcases (Pool.getElem?_put_iff ht).mp hu with ⟨-, rfl⟩ | ⟨hut, hu'⟩
  · exact hknows
  · refine hstoring.knows h.live (h.knows hu') ?_ ?_
    · exact horderly.apart hG (Ne.symm hut) ht hu'
    · exact horderly.apart hG hut hu' ht

theorem Informed.act (hG : G.Excludes Fits Toward) (horderly : Orderly Fits Toward p)
    (h : Informed p) (turn : Turn (Call α)) : Informed ((machine G α).act p turn) := by
  refine Machine.act_keeps h ?_ ?_ turn
  · intro t c call ht hrest
    refine ⟨h.live, ?_⟩
    intro u d hu
    rcases (Pool.getElem?_put_iff ht).mp hu with ⟨-, rfl⟩ | ⟨-, hu'⟩
    · apply Task.knows_of_outside
      have hallows := stance_ofCall (G := G) call
      show (Task.ofCall call).stance.isInside = false
      cases hstance : (Task.ofCall (G := G) call).stance with
      | outside | toward => rfl
      | _ =>
        rw [hstance] at hallows
        cases hallows
    · exact h.knows hu'
  · intro t c luck ht _
    exact h.step hG horderly ht luck

end

end Gated

end Growable.SharedArray
