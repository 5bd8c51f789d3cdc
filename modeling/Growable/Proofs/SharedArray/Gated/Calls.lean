import Growable.Proofs.SharedArray.Gated.Deposits

/-!
# Calls and their tasks

Every task is part of one sort of call, and keeps what the call was made with: the index, the value,
the number of slots. So a thread under way is at a task of the call that it was handed last, and
what it puts into a slot is what it was called with.
-/

namespace Growable.SharedArray

variable {α : Type}

/-- The call that a slot is accessed for. -/
def Access.call (i : Nat) : Access α → Call α
  | load => .read i
  | store v => .write i v

/-- The call that a growth is made for. -/
def Growth.call : Growth α → Call α
  | fit _ v => .append v
  | reserve n => .ensureCapacity n

/-- The call that the capacity is found for. -/
def Call.ofNeed : Option Nat → Call α
  | none => .capacity
  | some n => .ensureCapacity n

/-- A thread may leave a gate with the answer to the call. -/
def Answer.Ends (call : Call α) : Answer α → Prop
  | value _ => ∃ i, call = .read i
  | done => ∃ i v, call = .write i v
  | values _ => call = .toArray
  | overflowed => ∃ g : Growth α, call = g.call
  | refused _ | brokenOff => True
  | index _ | count _ | waiting => False

namespace Gated

open Lock (Gate Mode)

/-- The call that a deposit is made for. -/
def Deposit.call (d : Deposit α) : Call α :=
  if d.appended then .append d.value else .write d.slot d.value

section

variable {G : Gate}

/-- The task is part of the call. -/
def Task.Serves (call : Call α) : Task G α → Prop
  | .rest _ => True
  | .leave a => a.Ends call
  | .length => call = .length
  | .measure need? | .measureInside need? | .measureLeave need? _ => call = .ofNeed need?
  | .reserve v | .reserveSwap v _ | .placeEnter _ v | .placePointer _ v | .placeSlot _ v _
  | .placeLeave _ v _ | .fitPointer _ v | .fitSlot _ v _ => call = .append v
  | .growEnter g | .growPointer g | .copy g .. | .publish g .. | .growLeave g => call = g.call
  | .await _ | .commit _ => ∃ v, call = .append v
  | .tryAll i | .tryStamp i _ | .tryLength i .. | .tryPointer i .. | .trySlot i ..
  | .tryValid i .. => call = .read i
  | .accessEnter i a | .accessLength i a | .accessPointer i a | .accessSlot i a _ => call = a.call i
  | .collectEnter | .collectPointer | .collectLength _ | .collect .. => call = .toArray

theorem rests_ofCall (call : Call α) : (Task.ofCall (G := G) call).rests = false := by
  cases call with
  | read i =>
    unfold Task.ofCall
    dsimp only
    split <;> rfl
  | _ => rfl

theorem serves_ofCall (call : Call α) : (Task.ofCall (G := G) call).Serves call := by
  cases call with
  | read i =>
    cases hoptimistic : G.optimistic with
    | true => simp [Task.ofCall, hoptimistic, Task.Serves]
    | false => simp [Task.ofCall, hoptimistic, Task.Serves, Access.call]
  | _ => rfl

theorem rests_idle {store : Store α} {len : Nat} {config : Config} {threads t : Nat}
    {limits : Limits} {c : Client G α}
    (ht : (idle G store len config threads limits).threads[t]? = some c) :
    c.task.rests = true := by
  obtain rfl := idle_get? ht
  rfl

theorem serves_enter {call : Call α} {m : Mode} {luck : Bool} {next : Task G α} (s : Shared G α)
    {c : Client G α} (hnext : next.Serves call) (h : c.task.Serves call) :
    (enter m luck next s c).2.task.Serves call :=
  enter_task (P := fun k => k.Serves call) hnext h

theorem serves_afterMeasure {call : Call α} {need? : Option Nat} (found : Nat)
    (h : call = .ofNeed need?) : (Task.afterMeasure (G := G) need? found).Serves call := by
  cases need? with
  | none => exact trivial
  | some n =>
    unfold Task.afterMeasure
    dsimp only
    split
    · exact trivial
    · exact h

theorem serves_afterGrowth {call : Call α} {g : Growth α} (h : call = g.call) :
    (Task.afterGrowth (G := G) g).Serves call := by
  cases g with
  | fit i v => exact h
  | reserve n => exact h

theorem serves_ofReserved {call : Call α} {v : α} (limits : Limits) (reserved maxCapacity : Nat)
    (h : call = .append v) :
    (Task.ofReserved (G := G) limits v reserved maxCapacity).Serves call := by
  unfold Task.ofReserved
  split
  · exact h
  · exact trivial

theorem serves_afterValid (call : Call α) (i len : Nat) (v? : Option α) :
    (Task.afterValid (G := G) i len v?).Serves call := by
  cases v? with
  | none => exact trivial
  | some v =>
    unfold Task.afterValid
    dsimp only
    split <;> exact trivial

variable [Inhabited α]

/-- A step goes on with the call, if it does not end it. -/
theorem serves_step {call : Call α} (luck : Bool) (s : Shared G α) (c : Client G α)
    (h : c.task.Serves call) : (step luck s c).2.task.Serves call := by
  rcases c with ⟨place, task⟩
  cases task with
  | measure need? =>
    simp only [step]
    split
    · exact serves_afterMeasure _ h
    · exact serves_enter s h h
  | measureLeave need? found => exact serves_afterMeasure found h
  | reserve v => exact serves_ofReserved _ _ _ h
  | reserveSwap v seen =>
    simp only [step]
    split
    · exact h
    · exact serves_ofReserved _ _ _ h
  | placeEnter i v => exact serves_enter s h h
  | placeSlot i v p =>
    simp only [step]
    split <;> exact h
  | placeLeave i v written =>
    cases written with
    | true => exact ⟨v, h⟩
    | false => exact h
  | growEnter g => exact serves_enter s h h
  | growPointer g =>
    simp only [step]
    split
    · exact serves_afterGrowth h
    · split
      · exact trivial
      · dsimp only
        split
        · exact h
        · exact ⟨g, h⟩
  | copy g p target buffer =>
    simp only [step]
    split <;> exact h
  | publish g target buffer => exact serves_afterGrowth h
  | fitSlot i v p =>
    simp only [step]
    split
    · exact h
    · exact trivial
  | growLeave g =>
    cases g with
    | fit i v => exact ⟨v, h⟩
    | reserve n => exact trivial
  | await i =>
    simp only [step]
    split <;> exact h
  | tryStamp i left =>
    cases left with
    | zero => exact h
    | succ left =>
      simp only [step]
      split <;> exact h
  | tryValid i left stamp len v? =>
    simp only [step]
    split
    · exact serves_afterValid call i len v?
    · exact h
  | accessEnter i a => exact serves_enter s h h
  | accessLength i a =>
    simp only [step]
    split
    · exact h
    · exact trivial
  | accessSlot i a p =>
    cases hold : s.stores.get? p i with
    | none =>
      simp only [step, Access.perform, hold]
      exact trivial
    | some old =>
      cases a with
      | load =>
        simp only [step, Access.perform, hold]
        exact ⟨i, h⟩
      | store v =>
        simp only [step, Access.perform, hold]
        exact ⟨i, v, h⟩
  | collectEnter => exact serves_enter s h h
  | collect p n buffer =>
    simp only [step]
    split
    · split
      · exact h
      · exact trivial
    · exact h
  | length | commit | leave => exact trivial
  | _ => exact h

omit [Inhabited α] in
theorem Task.call_of_deposit? {call : Call α} {t : Nat} {s : Stores α} {k : Task G α}
    {d : Deposit α} (h : k.deposit? t s = some d) (hk : k.Serves call) :
    call = d.call := by
  cases k with
  | placeSlot i v p | fitSlot i v p =>
    obtain ⟨-, ⟨⟩⟩ := Option.ite_none_right_eq_some.mp h
    exact hk
  | accessSlot i a p =>
    cases a with
    | load => cases h
    | store v =>
      obtain ⟨-, ⟨⟩⟩ := Option.ite_none_right_eq_some.mp h
      exact hk
  | _ => cases h

end

/-! ## In every run -/

namespace Setup

variable [Inhabited α] (S : Setup α) {G : Gate} {turns : List (Turn (Call α))} {t : Nat}
  {c : Client G α}

theorem lastCall?_of_busy (ht : (S.after G turns).threads[t]? = some c)
    (hbusy : c.task.rests = false) (turn : Turn (Call α)) :
    Machine.lastCall? (S.history G (turns ++ [turn])) t =
      Machine.lastCall? (S.history G turns) t :=
  Machine.lastCall?_of_busy ⟨c, ht, hbusy⟩ turn

theorem lastCall?_of_call (call : Call α) (ht : (S.after G turns).threads[t]? = some c)
    (hrest : c.task.rests = true) :
    Machine.lastCall? (S.history G (turns ++ [.call t call])) t = some call :=
  Machine.lastCall?_of_call call ht hrest (rests_ofCall call)

/-- A thread under way is at a task of the call that it was handed last. -/
theorem serves_after (ht : (S.after G turns).threads[t]? = some c) (hbusy : c.task.rests = false) :
    ∃ call, Machine.lastCall? (S.history G turns) t = some call ∧ c.task.Serves call := by
  refine Machine.busy_invariant (m := machine G α)
    (fun turns t c => ∃ call, Machine.lastCall? (S.history G turns) t = some call ∧
      c.task.Serves call) rests_idle ?_ ?_ ?_ ht hbusy
  · intro turns t c call ht hrest
    exact ⟨call, S.lastCall?_of_call call ht hrest, serves_ofCall call⟩
  · rintro turns t c luck ht hbusy ⟨call, hcall, hserves⟩ -
    exact ⟨call, (S.lastCall?_of_busy ht hbusy _).trans hcall, serves_step luck _ c hserves⟩
  · rintro turns t c turn - ht - hbusy ⟨call, hcall, hserves⟩
    exact ⟨call, (S.lastCall?_of_busy ht hbusy turn).trans hcall, hserves⟩

/-- A deposit is made for a call, with the value of the call. -/
theorem call_of_deposited? {turn : Turn (Call α)} {d : Deposit α}
    (h : deposited? (S.after G turns) turn = some d) :
    Machine.lastCall? (S.history G turns) d.thread = some d.call := by
  obtain ⟨luck, c, rfl, ht, hbusy, hd⟩ := step_of_deposited? h
  obtain ⟨call, hcall, hserves⟩ := S.serves_after ht hbusy
  obtain rfl := Task.call_of_deposit? hd hserves
  exact hcall

end Setup

end Gated

end Growable.SharedArray
