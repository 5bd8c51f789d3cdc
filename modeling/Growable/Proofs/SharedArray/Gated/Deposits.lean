import Growable.Proofs.SharedArray.Gated.Setup

/-!
# Deposits

Whatever reaches a slot is put there by an append or by a write, in a single step: a deposit. The
deposits of a run, in their order, tell what every slot of the current store holds, since each of
them goes to the store that is current at that moment, and a growth carries the slots over and adds
slots that hold the default. A store that was replaced is left as it is for good.
-/

namespace Growable.SharedArray

namespace Stores

variable {α : Type}

theorem get?_eq_none_iff {s : Stores α} {p i : Nat} : s.get? p i = none ↔ s.capacityOf p ≤ i := by
  unfold get? capacityOf
  cases s.history[p]? with
  | none => simp
  | some st => simp [Store.get?, Store.capacity]

end Stores

namespace Gated

open Lock (Gate Mode)

/-- A value that was put into a slot. -/
structure Deposit (α : Type) where
  thread : Nat
  /-- By the append of the slot's index; by a write otherwise. -/
  appended : Bool
  /-- The store that has the slot. -/
  name : Nat
  slot : Nat
  value : α
  deriving DecidableEq, Repr

section

variable {G : Gate} {α : Type}

/-- The deposit that a thread is to make at a task, unless the store has no such slot. -/
def Task.deposit? (t : Nat) (s : Stores α) : Task G α → Option (Deposit α)
  | .placeSlot i v p | .fitSlot i v p =>
    if i < s.capacityOf p then some ⟨t, true, p, i, v⟩ else none
  | .accessSlot i (.store v) p => if i < s.capacityOf p then some ⟨t, false, p, i, v⟩ else none
  | _ => none

/-- The deposit of a turn. -/
def deposited? (p : Pool (Shared G α) (Client G α)) : Turn (Call α) → Option (Deposit α) :=
  Machine.seenOfStep? (fun t s (c : Client G α) => c.task.deposit? t s.stores) p

/-- The value that was put into a slot last. -/
def latest? (ds : List (Deposit α)) (i : Nat) : Option α :=
  (ds.reverse.find? (·.slot = i)).map (·.value)

/-- What a slot holds after some deposits: the latest one, or what it held at first, which is the
default in a slot that was added later. -/
def content [Inhabited α] (store : Store α) (ds : List (Deposit α)) (i : Nat) : α :=
  (latest? ds i).getD ((store.get? i).getD default)

theorem latest?_concat (ds : List (Deposit α)) (d : Deposit α) (i : Nat) :
    latest? (ds ++ [d]) i = if d.slot = i then some d.value else latest? ds i := by
  unfold latest?
  rw [List.reverse_append]
  by_cases hi : d.slot = i
  · simp [hi]
  · simp [hi]

theorem latest?_eq_none_iff {ds : List (Deposit α)} {i : Nat} :
    latest? ds i = none ↔ ∀ d ∈ ds, d.slot ≠ i := by
  simp [latest?]

theorem exists_of_latest? {ds : List (Deposit α)} {i : Nat} {v : α} (h : latest? ds i = some v) :
    ∃ d ∈ ds, d.slot = i ∧ d.value = v := by
  obtain ⟨d, hfind, rfl⟩ := Option.map_eq_some_iff.mp h
  have hslot := List.find?_some hfind
  exact ⟨d, List.mem_reverse.mp (List.mem_of_find?_eq_some hfind), of_decide_eq_true hslot, rfl⟩

theorem content_concat [Inhabited α] (store : Store α) (ds : List (Deposit α)) (d : Deposit α)
    (i : Nat) : content store (ds ++ [d]) i = if d.slot = i then d.value else content store ds i := by
  rw [content, latest?_concat]
  split
  · rfl
  · rfl

variable {s : Stores α} {k : Task G α} {t : Nat} {d : Deposit α}

theorem Task.deposit?_inside (h : k.deposit? t s = some d) :
    k.rests = false ∧ d.slot < s.capacityOf d.name := by
  cases k with
  | placeSlot i v p | fitSlot i v p =>
    obtain ⟨hlt, ⟨⟩⟩ := Option.ite_none_right_eq_some.mp h
    exact ⟨rfl, hlt⟩
  | accessSlot i a p =>
    cases a with
    | load => cases h
    | store v =>
      obtain ⟨hlt, ⟨⟩⟩ := Option.ite_none_right_eq_some.mp h
      exact ⟨rfl, hlt⟩
  | _ => cases h

theorem Task.thread_of_deposit? (h : k.deposit? t s = some d) : d.thread = t := by
  cases k with
  | placeSlot i v p | fitSlot i v p =>
    obtain ⟨-, ⟨⟩⟩ := Option.ite_none_right_eq_some.mp h
    rfl
  | accessSlot i a p =>
    cases a with
    | load => cases h
    | store v =>
      obtain ⟨-, ⟨⟩⟩ := Option.ite_none_right_eq_some.mp h
      rfl
  | _ => cases h

/-- The store that a thread knows by name is the current one. -/
theorem Task.name_of_deposit? {limits : Limits} {allowed : Nat} (h : k.deposit? t s = some d)
    (hk : k.Knows s limits allowed) : d.name = s.current := by
  cases k with
  | placeSlot i v p =>
    obtain ⟨-, ⟨⟩⟩ := Option.ite_none_right_eq_some.mp h
    exact hk
  | fitSlot i v p =>
    obtain ⟨-, ⟨⟩⟩ := Option.ite_none_right_eq_some.mp h
    exact hk.1
  | accessSlot i a p =>
    cases a with
    | load => cases h
    | store v =>
      obtain ⟨-, ⟨⟩⟩ := Option.ite_none_right_eq_some.mp h
      exact hk
  | _ => cases h

theorem Task.deposit?_of_writes? {limits : Limits} {allowed i : Nat} {v : α}
    (hk : k.Knows s limits allowed)
    (hwrites : k.writes? = some (i, v)) (hi : i < s.capacity) : k.deposit? t s ≠ none := by
  cases k with
  | placeSlot j u p =>
    obtain ⟨rfl, rfl⟩ := Prod.mk.inj (Option.some.inj hwrites)
    obtain rfl : p = s.current := hk
    simp [Task.deposit?, show j < s.capacityOf s.current from hi]
  | fitSlot j u p =>
    obtain ⟨rfl, rfl⟩ := Prod.mk.inj (Option.some.inj hwrites)
    obtain rfl : p = s.current := hk.1
    simp [Task.deposit?, show j < s.capacityOf s.current from hi]
  | accessSlot j a p =>
    cases a with
    | load => cases hwrites
    | store u =>
      obtain ⟨rfl, rfl⟩ := Prod.mk.inj (Option.some.inj hwrites)
      obtain rfl : p = s.current := hk
      simp [Task.deposit?, show j < s.capacityOf s.current from hi]
  | _ => cases hwrites

theorem size_of_slots {buffer : Array α} (hlive : s.Live)
    (hbuffer : ∀ j, buffer[j]? = s.slot? j) : buffer.size = s.capacity := by
  have hend := hbuffer s.capacity
  have hend' := hbuffer buffer.size
  rw [hlive.slot?_eq_none_iff.mpr (Nat.le_refl _), Array.getElem?_eq_none_iff] at hend
  rw [Array.getElem?_eq_none_iff.mpr (Nat.le_refl _), eq_comm, hlive.slot?_eq_none_iff] at hend'
  omega

variable [Inhabited α]

/-- A deposit is made as it was to be. -/
theorem stores_of_deposit? (luck : Bool) (s : Shared G α) (c : Client G α)
    (h : c.task.deposit? t s.stores = some d) :
    (step luck s c).1.stores = s.stores.set d.name d.slot d.value := by
  rcases c with ⟨place, task⟩
  cases task with
  | placeSlot i v p | fitSlot i v p =>
    obtain ⟨hlt, ⟨⟩⟩ := Option.ite_none_right_eq_some.mp h
    simp [step, hlt]
  | accessSlot i a p =>
    cases a with
    | load => cases h
    | store v =>
      obtain ⟨hlt, ⟨⟩⟩ := Option.ite_none_right_eq_some.mp h
      cases hold : s.stores.get? p i with
      | none =>
        have hle := Stores.get?_eq_none_iff.mp hold
        omega
      | some old => simp [step, Access.perform, hold]
  | _ => cases h

/-! ## What a turn does to the stores -/

/-- A turn leaves the stores as they are, or makes a deposit in the current one, or, while a thread
is in exclusive mode, replaces it by a larger one with the same slots and more. -/
inductive Filing (p : Pool (Shared G α) (Client G α)) (turn : Turn (Call α)) : Stores α → Prop
  | same : deposited? p turn = none → Filing p turn p.shared.stores
  | deposit {d : Deposit α} : deposited? p turn = some d → d.name = p.shared.stores.current →
      d.slot < p.shared.stores.capacity →
      Filing p turn (p.shared.stores.set d.name d.slot d.value)
  | grow {required target t : Nat} {c : Client G α} {buffer : Array α} :
      deposited? p turn = none → p.threads[t]? = some c → c.task.stance = .holding .exclusive →
      Due p.shared.stores p.shared.limits p.shared.maxCapacity required target →
      (∀ j, buffer[j]? = p.shared.stores.slot? j) →
      Filing p turn (p.shared.stores.publish (.ofValues buffer target))

variable {p : Pool (Shared G α) (Client G α)} {turn : Turn (Call α)} {s' : Stores α}

theorem deposited?_of_idle (hidle : ∀ {t : Nat} {luck : Bool} {c : Client G α},
    turn = .step t luck → p.threads[t]? = some c → (machine G α).rests c = true) :
    deposited? p turn = none := by
  refine Machine.seenOfStep?_of_idle (m := machine G α) ?_ hidle
  intro t s c hrest
  rw [Option.eq_none_iff_forall_ne_some]
  intro d hd
  rw [show (machine G α).rests c = c.task.rests from rfl, (Task.deposit?_inside hd).1] at hrest
  cases hrest

omit [Inhabited α] in
/-- A deposit is made by a step of its thread. -/
theorem step_of_deposited? {d : Deposit α} (h : deposited? p turn = some d) :
    ∃ luck c, turn = .step d.thread luck ∧ p.threads[d.thread]? = some c ∧
      c.task.rests = false ∧ c.task.deposit? d.thread p.shared.stores = some d := by
  cases turn with
  | call t call => cases h
  | step t luck =>
    obtain ⟨c, ht, hd⟩ := Option.bind_eq_some_iff.mp h
    obtain rfl := Task.thread_of_deposit? hd
    exact ⟨luck, c, rfl, ht, (Task.deposit?_inside hd).1, hd⟩

theorem filing (h : Informed p) (turn : Turn (Call α)) :
    Filing p turn ((machine G α).act p turn).shared.stores := by
  have hacts := Machine.acts (machine G α) p turn
  generalize (machine G α).act p turn = p' at hacts
  cases hacts with
  | idle hidle => exact .same (deposited?_of_idle hidle)
  | call => exact .same rfl
  | @step t luck c ht hbusy =>
    have hseen : deposited? p (.step t luck) = c.task.deposit? t p.shared.stores :=
      Machine.seenOfStep?_of_step ht
    have hknows := h.knows ht
    have hstoring := (storing luck p.shared c h.live hknows).1
    change Filing p _ (step luck p.shared c).1.stores
    cases hdeposit : c.task.deposit? t p.shared.stores with
    | some d =>
      have hname := Task.name_of_deposit? hdeposit hknows
      have hslot := (Task.deposit?_inside hdeposit).2
      rw [hname] at hslot
      rw [stores_of_deposit? luck p.shared c hdeposit]
      exact .deposit (hseen.trans hdeposit) hname hslot
    | none =>
      generalize (step luck p.shared c).1.stores = s' at hstoring
      cases hstoring with
      | same => exact .same (hseen.trans hdeposit)
      | write hwrites hi => exact absurd hdeposit (Task.deposit?_of_writes? hknows hwrites hi)
      | grow hexclusive hdue hbuffer =>
        exact .grow (hseen.trans hdeposit) ht hexclusive hdue hbuffer

namespace Filing

theorem capacity_le (h : Filing p turn s') (hlive : p.shared.stores.Live) :
    p.shared.stores.capacity ≤ s'.capacity := by
  cases h with
  | same => exact Nat.le_refl _
  | deposit _ hname =>
    rw [hname]
    exact Nat.le_of_eq (hlive.capacity_set _ _).symm
  | grow _ _ _ hdue hbuffer =>
    rw [capacity_grow hlive hdue.capacity_lt hbuffer]
    exact Nat.le_of_lt hdue.capacity_lt

theorem capacity_le_max (h : Filing p turn s') (hlive : p.shared.stores.Live)
    (hmax : p.shared.stores.capacity ≤ p.shared.maxCapacity) :
    s'.capacity ≤ p.shared.maxCapacity := by
  cases h with
  | same => exact hmax
  | deposit _ hname =>
    rw [hname, hlive.capacity_set]
    exact hmax
  | grow _ _ _ hdue hbuffer =>
    rw [capacity_grow hlive hdue.capacity_lt hbuffer]
    exact hdue.target_le

/-- What a slot that was there holds afterwards. -/
theorem slot?_of_lt (h : Filing p turn s') (hlive : p.shared.stores.Live) {j : Nat}
    (hj : j < p.shared.stores.capacity) :
    s'.slot? j = match deposited? p turn with
      | some d => if d.slot = j then some d.value else p.shared.stores.slot? j
      | none => p.shared.stores.slot? j := by
  cases h with
  | same hnone => rw [hnone]
  | @deposit d hd hname hslot =>
    rw [hd, hname]
    by_cases hdj : d.slot = j
    · subst hdj
      simp only [if_true]
      exact hlive.slot?_set_self hj
    · simp only [if_neg hdj]
      exact hlive.slot?_set_of_ne hdj
  | grow hnone _ _ _ hbuffer =>
    rw [hnone]
    exact slot?_grow hlive hbuffer hj

/-- A slot that was added holds the default. -/
theorem slot?_of_le (h : Filing p turn s') (hlive : p.shared.stores.Live) {j : Nat}
    (hj : p.shared.stores.capacity ≤ j) (hj' : j < s'.capacity) : s'.slot? j = some default := by
  cases h with
  | same => omega
  | deposit _ hname =>
    rw [hname, hlive.capacity_set] at hj'
    omega
  | @grow _ target _ _ buffer _ _ _ hdue hbuffer =>
    have hsize := size_of_slots hlive hbuffer
    rw [capacity_grow hlive hdue.capacity_lt hbuffer] at hj'
    have hadded : j - buffer.size < target - buffer.size := by omega
    rw [Stores.slot?_publish, Store.get?, Store.ofValues,
      Array.getElem?_append_right (by omega), Array.getElem?_replicate, if_pos hadded]

/-- A store that was replaced stays replaced, and is left as it is. -/
theorem history_of_lt (h : Filing p turn s') {n : Nat} (hn : n < p.shared.stores.current) :
    n < s'.current ∧ s'.history[n]? = p.shared.stores.history[n]? := by
  cases h with
  | same => exact ⟨hn, rfl⟩
  | deposit _ hname =>
    rw [hname, Stores.current_set]
    refine ⟨hn, ?_⟩
    rw [Stores.set, Array.getElem?_modify, if_neg (by omega)]
  | grow =>
    have hsize : n < p.shared.stores.history.size := by
      unfold Stores.current at hn
      omega
    refine ⟨?_, ?_⟩
    · simp only [Stores.publish, Stores.current, Array.size_push]
      omega
    · rw [Stores.publish, Array.getElem?_push_lt hsize, Array.getElem?_eq_getElem hsize]

end Filing

/-! ## What the deposits tell -/

/-- The slots of the current store hold what the deposits tell. -/
structure Traced (store : Store α) (ds : List (Deposit α)) (s : Stores α) : Prop where
  room : store.capacity ≤ s.capacity
  within : ∀ d ∈ ds, d.slot < s.capacity
  holds : ∀ i < s.capacity, s.slot? i = some (content store ds i)

theorem traced_single (store : Store α) : Traced store [] (.single store) := by
  have hcapacity : (Stores.single store).capacity = store.capacity :=
    (Stores.ends_single store).capacity
  refine ⟨Nat.le_of_eq hcapacity.symm, fun d hd => absurd hd List.not_mem_nil, ?_⟩
  intro i hi
  rw [hcapacity] at hi
  have hget : store.get? i = some store.slots[i] := Array.getElem?_eq_getElem hi
  rw [Stores.slot?_single, content, hget]
  rfl

/-- What the deposits tell, they tell after one more turn. -/
theorem Traced.file {store : Store α} {ds : List (Deposit α)}
    (h : Traced store ds p.shared.stores) (hlive : p.shared.stores.Live)
    (hfiling : Filing p turn s') : Traced store (ds ++ (deposited? p turn).toList) s' := by
  have hcapacity := hfiling.capacity_le hlive
  refine ⟨Nat.le_trans h.room hcapacity, ?_, ?_⟩
  · intro d hd
    rcases List.mem_append.mp hd with hold | hnew
    · exact Nat.lt_of_lt_of_le (h.within d hold) hcapacity
    · cases hfiling with
      | same hnone | grow hnone => simp [hnone] at hnew
      | @deposit d' hd' hname hslot =>
        obtain rfl : d = d' := by simpa [hd'] using hnew
        rw [hname, hlive.capacity_set]
        exact hslot
  · intro i hi
    rcases Nat.lt_or_ge i p.shared.stores.capacity with hlt | hge
    · rw [hfiling.slot?_of_lt hlive hlt, h.holds i hlt]
      cases deposited? p turn with
      | none => rw [Option.toList_none, List.append_nil]
      | some d =>
        rw [Option.toList_some, content_concat]
        exact (apply_ite some ..).symm
    · -- nothing was put into a slot that is added now
      have hnone : deposited? p turn = none := by
        cases hfiling with
        | same hnone => exact hnone
        | grow hnone => exact hnone
        | deposit _ hname =>
          rw [hname, hlive.capacity_set] at hi
          omega
      have hlatest : latest? ds i = none := by
        rw [latest?_eq_none_iff]
        intro d hd
        have := h.within d hd
        omega
      have hget : store.get? i = none := by
        rw [Store.get?, Array.getElem?_eq_none_iff]
        have := h.room
        unfold Store.capacity at this
        omega
      rw [hfiling.slot?_of_le hlive hge hi, hnone, Option.toList_none, List.append_nil, content,
        hlatest, hget]
      rfl

end

/-! ## In every run -/

namespace Setup

variable {α : Type} [Inhabited α]

/-- The deposits made in some turns, the earliest first. -/
def deposits (S : Setup α) (G : Gate) (turns : List (Turn (Call α))) : List (Deposit α) :=
  (machine G α).observe deposited? (idle G S.store S.len S.config S.threads S.limits) turns

variable (S : Setup α) (k : GateKind) (turns : List (Turn (Call α)))

theorem deposits_concat (G : Gate) (turns : List (Turn (Call α))) (turn : Turn (Call α)) :
    S.deposits G (turns ++ [turn]) =
      S.deposits G turns ++ (deposited? (S.after G turns) turn).toList :=
  Machine.observe_concat _ _ _ turns turn

theorem mem_deposits_concat {G : Gate} {turns : List (Turn (Call α))} {turn : Turn (Call α)}
    {d : Deposit α} : d ∈ S.deposits G (turns ++ [turn]) ↔
      d ∈ S.deposits G turns ∨ deposited? (S.after G turns) turn = some d := by
  rw [deposits_concat, List.mem_append, Option.mem_toList]

theorem filing_after (turn : Turn (Call α)) : Filing (S.after k.gate turns) turn
    (S.after k.gate (turns ++ [turn])).shared.stores := by
  rw [after_concat]
  exact filing (S.sound_after k turns).informed turn

theorem traced_after :
    Traced S.store (S.deposits k.gate turns) (S.after k.gate turns).shared.stores := by
  induction turns using List.reverseRecOn with
  | nil => exact traced_single S.store
  | append_singleton turns turn ih =>
    rw [deposits_concat]
    exact ih.file (S.sound_after k turns).informed.live (S.filing_after k turns turn)

/-- A store that was replaced is left as it is, whatever comes. -/
theorem replaced_after (more : List (Turn (Call α))) {n : Nat}
    (hn : n < (S.after k.gate turns).shared.stores.current) :
    n < (S.after k.gate (turns ++ more)).shared.stores.current ∧
      (S.after k.gate (turns ++ more)).shared.stores.history[n]? =
        (S.after k.gate turns).shared.stores.history[n]? := by
  induction more using List.reverseRecOn with
  | nil =>
    rw [List.append_nil]
    exact ⟨hn, rfl⟩
  | append_singleton more turn ih =>
    have hfiling := (S.filing_after k (turns ++ more) turn).history_of_lt ih.1
    rw [← List.append_assoc]
    exact ⟨hfiling.1, hfiling.2.trans ih.2⟩

theorem capacity_le_after (more : List (Turn (Call α))) :
    (S.after k.gate turns).shared.stores.capacity ≤
      (S.after k.gate (turns ++ more)).shared.stores.capacity := by
  induction more using List.reverseRecOn with
  | nil => exact Nat.le_of_eq (by rw [List.append_nil])
  | append_singleton more turn ih =>
    rw [← List.append_assoc]
    exact Nat.le_trans ih ((S.filing_after k (turns ++ more) turn).capacity_le
      (S.sound_after k (turns ++ more)).informed.live)

end Setup

end Gated

end Growable.SharedArray
