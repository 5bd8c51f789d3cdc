import Growable.Proofs.SharedArray.Gated.Appends
import Growable.Proofs.SharedArray.Gated.Finding

/-!
# The published prefix

An append deposits its value in the slot of the index it owns before it commits the index, and an
index is owned once. So below the length every slot that was not there from the first has been
written, by the one append of its index; and since writes look at the length first, a slot that no
append has written holds what it held when it was added.
-/

namespace Growable.SharedArray.Gated

open Lock (Gate Mode)

section

variable {G : Gate} {α : Type}

/-- The index whose slot an append has yet to write. -/
def Task.owes? : Task G α → Option Nat
  | .placeEnter i _ | .placePointer i _ | .placeSlot i _ _ | .placeLeave i _ false
  | .fitPointer i _ | .fitSlot i _ _ => some i
  | .growEnter (.fit i _) | .growPointer (.fit i _) | .copy (.fit i _) .. | .publish (.fit i _) .. =>
    some i
  | _ => none

theorem Task.owns?_of_owes? {k : Task G α} {i : Nat} (h : k.owes? = some i) :
    k.owns? = some i := by
  cases k with
  | placeLeave j v written =>
    cases written with
    | true => cases h
    | false => exact h
  | growEnter g | growPointer g | copy g | publish g =>
    cases g with
    | fit j v => exact h
    | reserve n => cases h
  | placeEnter | placePointer | placeSlot | fitPointer | fitSlot => exact h
  | _ => cases h

/-- The deposit of an append is made in the slot it owes. -/
theorem Task.owes?_of_deposit? {k : Task G α} {t : Nat} {s : Stores α} {d : Deposit α}
    (h : k.deposit? t s = some d) (happended : d.appended = true) :
    k.owes? = some d.slot := by
  cases k with
  | placeSlot i v p | fitSlot i v p =>
    obtain ⟨-, ⟨⟩⟩ := Option.ite_none_right_eq_some.mp h
    rfl
  | accessSlot i a p =>
    cases a with
    | load => cases h
    | store v =>
      obtain ⟨-, ⟨⟩⟩ := Option.ite_none_right_eq_some.mp h
      cases happended
  | _ => cases h

/-- What a step does about the slot that an append owes: nothing, or it takes an index, or it writes
the slot, or the call is over. -/
inductive Placing (t : Nat) (s : Shared G α) (k k' : Task G α) : Prop
  | on : (∀ d, k.deposit? t s.stores = some d → d.appended = false) → k'.placed? = k.placed? →
      k'.owes? = k.owes? → Placing t s k k'
  | take : k.deposit? t s.stores = none → k'.placed? = none → k'.owes? = some s.reserved →
      Placing t s k k'
  | put {d : Deposit α} : k.deposit? t s.stores = some d → d.appended = true →
      k'.rests = false → k'.placed? = some d.slot → k'.owes? = none → Placing t s k k'
  | finish : k.deposit? t s.stores = none → k'.placed? = none → k'.owes? = none → Placing t s k k'

theorem Placing.stay {t : Nat} {s : Shared G α} {k k' : Task G α}
    (hnone : k.deposit? t s.stores = none) (hplaced : k'.placed? = k.placed?)
    (howes : k'.owes? = k.owes?) : Placing t s k k' := by
  refine .on ?_ hplaced howes
  intro d hd
  rw [hnone] at hd
  cases hd

theorem Placing.enter {t : Nat} {m : Mode} {luck : Bool} {next : Task G α} {s : Shared G α}
    {c : Client G α} (hnone : c.task.deposit? t s.stores = none)
    (hplaced : next.placed? = c.task.placed?) (howes : next.owes? = c.task.owes?) :
    Placing t s c.task (enter m luck next s c).2.task := by
  refine enter_task (P := Placing t s c.task) ?_ ?_
  · exact .stay hnone hplaced howes
  · exact .stay hnone rfl rfl

theorem placing_afterMeasure {t : Nat} {s : Shared G α} {k : Task G α}
    (hnone : k.deposit? t s.stores = none) (need? : Option Nat) (found : Nat) :
    Placing t s k (.afterMeasure need? found) := by
  cases need? with
  | none => exact .finish hnone rfl rfl
  | some n =>
    simp only [Task.afterMeasure]
    split <;> exact .finish hnone rfl rfl

theorem placing_ofReserved {t : Nat} {s : Shared G α} {k : Task G α}
    (hnone : k.deposit? t s.stores = none) (v : α) :
    Placing t s k (.ofReserved s.limits v s.reserved s.maxCapacity) := by
  unfold Task.ofReserved
  split <;> exact .finish hnone rfl rfl

theorem placing_afterValid {t : Nat} {s : Shared G α} {k : Task G α}
    (hnone : k.deposit? t s.stores = none) (i len : Nat) (v? : Option α) :
    Placing t s k (.afterValid i len v?) := by
  cases v? with
  | none => exact .finish hnone rfl rfl
  | some v =>
    simp only [Task.afterValid]
    split <;> exact .finish hnone rfl rfl

variable [Inhabited α]

theorem placing (t : Nat) (luck : Bool) (s : Shared G α) (c : Client G α) :
    Placing t s c.task (step luck s c).2.task := by
  rcases c with ⟨place, task⟩
  cases task with
  | measure need? =>
    simp only [step]
    split
    · exact placing_afterMeasure rfl need? _
    · exact Placing.enter (c := ⟨place, .measure need?⟩) rfl rfl rfl
  | measureLeave need? found => exact placing_afterMeasure rfl need? found
  | reserve v => exact placing_ofReserved rfl v
  | reserveSwap v seen =>
    simp only [step]
    split
    · rename_i hsame
      obtain rfl : s.reserved = seen := eq_of_beq (Bool.and_eq_true .. ▸ hsame).2
      exact .take rfl rfl rfl
    · exact placing_ofReserved rfl v
  | placeEnter i v => exact .enter rfl rfl rfl
  | placeSlot i v p =>
    simp only [step]
    split
    · rename_i hlt
      refine .put (d := ⟨t, true, p, i, v⟩) ?_ rfl rfl rfl rfl
      simp only [Task.deposit?, if_pos hlt]
    · rename_i hnot
      refine .on ?_ rfl rfl
      simp [Task.deposit?, hnot]
  | placeLeave i v written => cases written <;> exact .stay rfl rfl rfl
  | growEnter g => cases g <;> exact .enter rfl rfl rfl
  | growPointer g =>
    simp only [step]
    split
    · cases g <;> exact .stay rfl rfl rfl
    · split
      · exact .finish rfl rfl rfl
      · dsimp only
        split
        · cases g <;> exact .stay rfl rfl rfl
        · exact .finish rfl rfl rfl
  | copy g p target buffer =>
    simp only [step]
    split <;> cases g <;> exact .stay rfl rfl rfl
  | publish g target buffer => cases g <;> exact .stay rfl rfl rfl
  | fitSlot i v p =>
    simp only [step]
    split
    · rename_i hlt
      refine .put (d := ⟨t, true, p, i, v⟩) ?_ rfl rfl rfl rfl
      simp only [Task.deposit?, if_pos hlt]
    · rename_i hnot
      refine .finish ?_ rfl rfl
      simp only [Task.deposit?, if_neg hnot]
  | growLeave g => cases g <;> exact .stay rfl rfl rfl
  | await i =>
    simp only [step]
    split <;> exact .stay rfl rfl rfl
  | tryStamp i left =>
    cases left with
    | zero => exact .finish rfl rfl rfl
    | succ left =>
      simp only [step]
      split <;> exact .finish rfl rfl rfl
  | tryValid i left stamp len v? =>
    simp only [step]
    split
    · exact placing_afterValid rfl i len v?
    · exact .finish rfl rfl rfl
  | accessEnter i a => exact .enter rfl rfl rfl
  | accessLength i a =>
    simp only [step]
    split <;> exact .finish rfl rfl rfl
  | accessSlot i a p =>
    have hnot : ∀ d, (Task.accessSlot i a p : Task G α).deposit? t s.stores = some d →
        d.appended = false := by
      intro d hd
      cases a with
      | load => cases hd
      | store v =>
        obtain ⟨-, ⟨⟩⟩ := Option.ite_none_right_eq_some.mp hd
        rfl
    simp only [step]
    split <;> exact .on hnot rfl rfl
  | collectEnter => exact .enter rfl rfl rfl
  | collect p n buffer =>
    simp only [step]
    split
    · split <;> exact .finish rfl rfl rfl
    · exact .finish rfl rfl rfl
  | commit i => exact .finish rfl rfl rfl
  | _ => exact .stay rfl rfl rfl

end

/-- The deposit of the append of index `i`. -/
def Deposit.appends {α : Type} (i : Nat) (d : Deposit α) : Bool := d.appended && d.slot == i

theorem Deposit.appends_iff {α : Type} {i : Nat} {d : Deposit α} :
    d.appends i = true ↔ d.appended = true ∧ d.slot = i := by
  simp [Deposit.appends]

/-! ## In every run -/

namespace Setup

variable {α : Type} [Inhabited α] (S : Setup α) {k : GateKind} {turns : List (Turn (Call α))}
  {t : Nat} {c : Client k.gate α} {i : Nat} {d : Deposit α}

omit c in
theorem mem_of_lastDeposit {G : Gate} (h : S.During G t (S.LastDeposit G d) turns) :
    d ∈ S.deposits G turns := by
  refine (Since.mono h fun past hlast => List.mem_of_getLast? hlast).lasting ?_
  intro past turn hd
  exact (S.mem_deposits_concat).mpr (.inl hd)

/-- An append that has written its slot deposited its value there. -/
theorem placed_after (ht : (S.after k.gate turns).threads[t]? = some c)
    (hi : c.task.placed? = some i) :
    ∃ name v, Machine.lastCall? (S.history k.gate turns) t = some (.append v) ∧
      S.During k.gate t (S.LastDeposit k.gate ⟨t, true, name, i, v⟩) turns := by
  refine Machine.busy_invariant (m := machine k.gate α)
    (fun turns t c => ∀ i, c.task.placed? = some i → ∃ name v,
      Machine.lastCall? (S.history k.gate turns) t = some (.append v) ∧
        S.During k.gate t (S.LastDeposit k.gate ⟨t, true, name, i, v⟩) turns)
    rests_idle ?_ ?_ ?_ ht (Task.rests_of_owns? (Task.owns?_of_placed? hi)) i hi
  · intro turns t c call _ _ i hi
    have hnone := (owns_ofCall (G := k.gate) call).1
    have howns : (Task.ofCall (G := k.gate) call).owns? = some i := Task.owns?_of_placed? hi
    rw [hnone] at howns
    cases howns
  · intro turns t c luck ht hbusy hplaced hbusy' i hi
    have ht' : (S.after k.gate (turns ++ [.step t luck])).threads[t]? = some _ :=
      get?_put_after ht (Machine.act_step ht hbusy)
    have hcall := S.lastCall?_of_busy ht hbusy (.step t luck)
    have hplacing := placing t luck (S.after k.gate turns).shared c
    change (step luck (S.after k.gate turns).shared c).2.task.placed? = some i at hi
    cases hplacing with
    | on _ hsame =>
      obtain ⟨name, v, hlast, hduring⟩ := hplaced i (hsame ▸ hi)
      exact ⟨name, v, hcall.trans hlast, .later hduring (busy_after ht' hbusy')⟩
    | @put d hd happended _ hput =>
      obtain rfl : d.slot = i := Option.some.inj (hput.symm.trans hi)
      obtain ⟨call, hlast, hserves⟩ := S.serves_after ht hbusy
      obtain rfl := Task.call_of_deposit? hd hserves
      obtain rfl := Task.thread_of_deposit? hd
      have hduring := S.lastDeposit_concat ht hd luck
      rcases d with ⟨u, appended, name, j, v⟩
      obtain rfl : appended = true := happended
      exact ⟨name, v, hcall.trans hlast, .now (busy_after ht' hbusy') hduring⟩
    | take _ hnone | finish _ hnone =>
      rw [hnone] at hi
      cases hi
  · intro turns t c turn _ ht ht' hbusy hplaced i hi
    obtain ⟨name, v, hlast, hduring⟩ := hplaced i hi
    exact ⟨name, v, (S.lastCall?_of_busy ht hbusy turn).trans hlast,
      .later hduring (busy_after ht' hbusy)⟩

/-- A slot that an append has written is there. -/
theorem lt_capacity_of_placed (ht : (S.after k.gate turns).threads[t]? = some c)
    (hi : c.task.placed? = some i) : i < (S.after k.gate turns).shared.stores.capacity := by
  obtain ⟨name, v, -, hduring⟩ := S.placed_after ht hi
  exact (S.traced_after k turns).within _ (S.mem_of_lastDeposit hduring)

/-- Only reserved indices are written by appends. -/
theorem taken_after (k : GateKind) (turns : List (Turn (Call α))) :
    ∀ d ∈ S.deposits k.gate turns, d.appended = true →
      S.len ≤ d.slot ∧ d.slot < (S.after k.gate turns).shared.reserved := by
  induction turns using List.reverseRecOn with
  | nil => exact fun d hd => absurd hd List.not_mem_nil
  | append_singleton turns turn ih =>
    have hsound := S.sound_after k turns
    have hle := hsound.reserved_le_act turn
    rw [← after_concat] at hle
    intro d hd happended
    rcases S.mem_deposits_concat.mp hd with hold | hnew
    · obtain ⟨hlen, hlt⟩ := ih d hold happended
      exact ⟨hlen, Nat.lt_of_lt_of_le hlt hle⟩
    · obtain ⟨luck, c, rfl, ht, -, hdeposit⟩ := step_of_deposited? hnew
      have howns := Task.owns?_of_owes? (Task.owes?_of_deposit? hdeposit happended)
      obtain ⟨hcommitted, hreserved, -⟩ := hsound.paced.owns ht howns
      exact ⟨Nat.le_trans hsound.paced.len_le hcommitted, Nat.lt_of_lt_of_le hreserved hle⟩

/-- No append has written a slot that another one owes. -/
theorem owed_after (ht : (S.after k.gate turns).threads[t]? = some c)
    (hi : c.task.owes? = some i) : ∀ d ∈ S.deposits k.gate turns, d.appends i = false := by
  refine Machine.busy_invariant (m := machine k.gate α)
    (fun turns _ c => ∀ i, c.task.owes? = some i →
      ∀ d ∈ S.deposits k.gate turns, d.appends i = false)
    rests_idle ?_ ?_ ?_ ht (Task.rests_of_owns? (Task.owns?_of_owes? hi)) i hi
  · intro turns t c call _ _ i hi
    have hnone := (owns_ofCall (G := k.gate) call).1
    have howns : (Task.ofCall (G := k.gate) call).owns? = some i := Task.owns?_of_owes? hi
    rw [hnone] at howns
    cases howns
  · intro turns t c luck ht _ howed _ i hi d hd
    have hseen : deposited? (S.after k.gate turns) (.step t luck) =
        c.task.deposit? t (S.after k.gate turns).shared.stores := Machine.seenOfStep?_of_step ht
    change (step luck (S.after k.gate turns).shared c).2.task.owes? = some i at hi
    rcases S.mem_deposits_concat.mp hd with hold | hnew
    · cases placing t luck (S.after k.gate turns).shared c with
      | on _ _ hsame => exact howed i (hsame ▸ hi) d hold
      | take _ _ htake =>
        -- the index is the next one that is reserved, so no append has had it
        rw [Bool.eq_false_iff]
        intro happends
        obtain ⟨happended, hslot⟩ := Deposit.appends_iff.mp happends
        have hlt := (S.taken_after k turns d hold happended).2
        have hindex : (S.after k.gate turns).shared.reserved = i :=
          Option.some.inj (htake.symm.trans hi)
        omega
      | put _ _ _ _ hnone | finish _ _ hnone =>
        rw [hnone] at hi
        cases hi
    · rw [hseen] at hnew
      cases placing t luck (S.after k.gate turns).shared c with
      | on hnot =>
        rw [Deposit.appends, hnot d hnew]
        rfl
      | take hnone | finish hnone =>
        rw [hnone] at hnew
        cases hnew
      | put _ _ _ _ hnone =>
        rw [hnone] at hi
        cases hi
  · intro turns t c turn hturn ht _ _ howed i hi d hd
    rcases S.mem_deposits_concat.mp hd with hold | hnew
    · exact howed i hi d hold
    · -- the other thread owes its slot, and no two threads owe the same
      rw [Bool.eq_false_iff]
      intro happends
      obtain ⟨happended, rfl⟩ := Deposit.appends_iff.mp happends
      obtain ⟨luck, u, rfl, hu, -, hdeposit⟩ := step_of_deposited? hnew
      have howes := Task.owns?_of_owes? (Task.owes?_of_deposit? hdeposit happended)
      obtain rfl := (S.sound_after k turns).paced.unique ht hu (Task.owns?_of_owes? hi) howes
      exact hturn luck rfl

/-- An index is written by one append. -/
theorem once_after (k : GateKind) (turns : List (Turn (Call α))) (i : Nat) :
    ((S.deposits k.gate turns).filter (Deposit.appends i)).length ≤ 1 := by
  induction turns using List.reverseRecOn with
  | nil => exact Nat.zero_le 1
  | append_singleton turns turn ih =>
    rw [deposits_concat, List.filter_append, List.length_append]
    cases hd : deposited? (S.after k.gate turns) turn with
    | none => exact ih
    | some d =>
      rw [Option.toList_some]
      cases happends : d.appends i with
      | false =>
        rw [List.filter_cons_of_neg (by simp [happends])]
        exact ih
      | true =>
        obtain ⟨happended, rfl⟩ := Deposit.appends_iff.mp happends
        obtain ⟨luck, c, -, ht, -, hdeposit⟩ := step_of_deposited? hd
        have howed := S.owed_after ht (Task.owes?_of_deposit? hdeposit happended)
        rw [List.filter_cons_of_pos happends, List.filter_eq_nil_iff.mpr fun e he => by simp [howed e he]]
        exact Nat.le_refl 1

/-- Only elements are overwritten. -/
theorem overwrites_after (k : GateKind) (turns : List (Turn (Call α))) :
    ∀ d ∈ S.deposits k.gate turns, d.appended = false →
      d.slot < (S.after k.gate turns).shared.committed := by
  induction turns using List.reverseRecOn with
  | nil => exact fun d hd => absurd hd List.not_mem_nil
  | append_singleton turns turn ih =>
    have hle := S.committed_le_concat k turns turn
    intro d hd hwritten
    rcases S.mem_deposits_concat.mp hd with hold | hnew
    · exact Nat.lt_of_lt_of_le (ih d hold hwritten) hle
    · obtain ⟨luck, c, rfl, ht, hbusy, hdeposit⟩ := step_of_deposited? hnew
      have hfound := S.found_after ht hbusy
      refine Nat.lt_of_lt_of_le ?_ hle
      rcases c with ⟨place, task⟩
      cases task with
      | placeSlot i v p | fitSlot i v p =>
        obtain ⟨-, hd⟩ := Option.ite_none_right_eq_some.mp hdeposit
        rw [← Option.some.inj hd] at hwritten
        cases hwritten
      | accessSlot i a p =>
        cases a with
        | load => cases hdeposit
        | store v =>
          obtain ⟨-, hd⟩ := Option.ite_none_right_eq_some.mp hdeposit
          rw [← Option.some.inj hd]
          exact hfound
      | _ => cases hdeposit

/-- Below the length every slot that is not there from the first has been written by the append of
its index. -/
theorem covers_after (k : GateKind) (turns : List (Turn (Call α))) :
    ∀ i, S.len ≤ i → i < (S.after k.gate turns).shared.committed →
      ∃ d ∈ S.deposits k.gate turns, d.appends i = true := by
  induction turns using List.reverseRecOn with
  | nil =>
    intro i hle hlt
    exact absurd hlt (Nat.not_lt.mpr hle)
  | append_singleton turns turn ih =>
    intro i hle hlt
    have hkeep {d : Deposit α} (hd : d ∈ S.deposits k.gate turns) :
        d ∈ S.deposits k.gate (turns ++ [turn]) := S.mem_deposits_concat.mpr (.inl hd)
    rw [after_concat] at hlt
    rcases (S.sound_after k turns).committed_act turn with hsame | ⟨hnext, t, c, ht, htask⟩
    · obtain ⟨d, hd, happends⟩ := ih i hle (hsame ▸ hlt)
      exact ⟨d, hkeep hd, happends⟩
    · rcases Nat.lt_or_ge i (S.after k.gate turns).shared.committed with hbelow | habove
      · obtain ⟨d, hd, happends⟩ := ih i hle hbelow
        exact ⟨d, hkeep hd, happends⟩
      · obtain rfl : i = (S.after k.gate turns).shared.committed := by omega
        obtain ⟨name, v, -, hlast⟩ := S.placed_after ht (by rw [htask]; rfl)
        exact ⟨_, hkeep (S.mem_of_lastDeposit hlast), Deposit.appends_iff.mpr ⟨rfl, rfl⟩⟩

theorem append_of_lt_committed (hle : S.len ≤ i)
    (hlt : i < (S.after k.gate turns).shared.committed) :
    ∃ d, (S.deposits k.gate turns).filter (Deposit.appends i) = [d] := by
  obtain ⟨d, hd, happends⟩ := S.covers_after k turns i hle hlt
  have hmem := List.mem_filter.mpr ⟨hd, happends⟩
  have hpos := List.length_pos_of_mem hmem
  exact List.length_eq_one_iff.mp (Nat.le_antisymm (S.once_after k turns i) hpos)

/-- A slot beyond the elements and the store there were at first holds the default until an append
has written it. -/
theorem slot?_of_unwritten (hlen : S.len ≤ i) (hstore : S.store.capacity ≤ i)
    (hi : i < (S.after k.gate turns).shared.stores.capacity)
    (hnone : ∀ d ∈ S.deposits k.gate turns, d.appends i = false) :
    (S.after k.gate turns).shared.stores.slot? i = some default := by
  have hlatest : latest? (S.deposits k.gate turns) i = none := by
    rw [latest?_eq_none_iff]
    rintro d hd rfl
    have happends := hnone d hd
    cases happended : d.appended with
    | true =>
      rw [Deposit.appends_iff.mpr ⟨happended, rfl⟩] at happends
      cases happends
    | false =>
      -- a write would have found the element of an append there
      have hlt := S.overwrites_after k turns d hd happended
      obtain ⟨e, he, happends'⟩ := S.covers_after k turns d.slot hlen hlt
      rw [hnone e he] at happends'
      cases happends'
  have hget : S.store.get? i = none := Array.getElem?_eq_none_iff.mpr hstore
  rw [(S.traced_after k turns).holds i hi, content, hlatest, hget]
  rfl

end Setup

end Growable.SharedArray.Gated
