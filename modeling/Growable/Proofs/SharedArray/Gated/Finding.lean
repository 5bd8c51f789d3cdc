import Growable.Proofs.SharedArray.Gated.Calls

/-!
# What a call finds out

A read or a write looks at the length before it looks at a slot, inside the gate or, with a stamp,
outside, and a copy looks at the length before it looks at the slots; `Finding` lists the steps by
which a call finds something out, and `Ending` the steps that answer it. What a thread has found out
was so at some moment of its call: the length it saw was the length, and a value it loaded in shared
mode was the element.
-/

namespace Growable.SharedArray.Gated

open Lock (Gate Mode)

section

variable {G : Gate} {α : Type}

/-- The slot, with the name of its store, that the next step of a task takes for granted. -/
def Task.touches? : Task G α → Option (Nat × Nat)
  | .fitSlot i _ p | .accessSlot i _ p => some (p, i)
  | .collect p n buffer => if buffer.size < n then some (p, buffer.size) else none
  | _ => none

/-- The thread has found something out about the elements or their number, or leaves. -/
def Task.finds : Task G α → Bool
  | .accessPointer .. | .accessSlot .. | .tryLength .. | .tryPointer .. | .trySlot .. | .tryValid ..
  | .collect .. | .measureLeave .. | .leave _ => true
  | _ => false

/-- How a step finds something out. -/
inductive Finding (s : Shared G α) : Task G α → Task G α → Prop
  | nothing {k k' : Task G α} : k'.finds = false → Finding s k k'
  | within {i : Nat} {a : Access α} : i < s.committed →
      Finding s (.accessLength i a) (.accessPointer i a)
  | beyond {i : Nat} {a : Access α} : s.committed ≤ i →
      Finding s (.accessLength i a) (.leave (.refused (.indexOutOfBounds i s.committed)))
  | name {i : Nat} {a : Access α} :
      Finding s (.accessPointer i a) (.accessSlot i a s.stores.current)
  | load {i p : Nat} {v : α} : s.stores.get? p i = some v →
      Finding s (.accessSlot i .load p) (.leave (.value v))
  | stored {i p : Nat} {v : α} : i < s.stores.capacityOf p →
      Finding s (.accessSlot i (.store v) p) (.leave .done)
  | broken {k : Task G α} {i p : Nat} : k.touches? = some (p, i) → s.stores.capacityOf p ≤ i →
      Finding s k (.leave .brokenOff)
  | full {g : Growth α} {e : Error} : Finding s (.growPointer g) (.leave (.refused e))
  | overflow {g : Growth α} : Finding s (.growPointer g) (.leave .overflowed)
  | stamp {i left : Nat} {stamp : G.Stamp} : G.stamp? s.gate = some stamp →
      Finding s (.tryStamp i (left + 1)) (.tryLength i left stamp)
  | tryLength {i left : Nat} {stamp : G.Stamp} :
      Finding s (.tryLength i left stamp) (.tryPointer i left stamp s.committed)
  | tryName {i left len : Nat} {stamp : G.Stamp} :
      Finding s (.tryPointer i left stamp len) (.trySlot i left stamp len s.stores.current)
  | trySlot {i left len p : Nat} {stamp : G.Stamp} :
      Finding s (.trySlot i left stamp len p)
        (.tryValid i left stamp len (s.stores.get? p i))
  | bound {p : Nat} :
      Finding s (.collectLength p) (.collect p (min s.committed (s.stores.capacityOf p)) #[])
  | collect {p n : Nat} {buffer : Array α} {v : α} : buffer.size < n →
      s.stores.get? p buffer.size = some v →
      Finding s (.collect p n buffer) (.collect p n (buffer.push v))
  | copied {p n : Nat} {buffer : Array α} : n ≤ buffer.size →
      Finding s (.collect p n buffer) (.leave (.values buffer))
  | measure {need? : Option Nat} :
      Finding s (.measureInside need?) (.measureLeave need? s.stores.capacity)

/-- How a step answers a call. -/
inductive Ending (s : Shared G α) : Task G α → Answer α → Prop
  | leave {a : Answer α} : Ending s (.leave a) a
  | valid {i left len : Nat} {stamp : G.Stamp} {v? : Option α} {a : Answer α} :
      G.valid s.gate stamp = true → Task.afterValid (G := G) i len v? = .answer a →
      Ending s (.tryValid i left stamp len v?) a
  | length : Ending s .length (.count s.committed)
  | measure : Ending s (.measure none) (.count s.stores.capacity)
  | measureLeave {found : Nat} : Ending s (.measureLeave none found) (.count found)
  | roomy {k : Task G α} {n : Nat} : (∀ call, k.Serves call → call = .ensureCapacity n) →
      Ending s k .done
  | full {k : Task G α} {v : α} {e : Error} : (∀ call, k.Serves call → call = .append v) →
      Ending s k (.refused e)
  | overflow {k : Task G α} {v : α} : (∀ call, k.Serves call → call = .append v) →
      Ending s k .overflowed
  | commit {i : Nat} : Ending s (.commit i) (.index i)

theorem finds_ofCall (call : Call α) : (Task.ofCall (G := G) call).finds = false := by
  cases call with
  | read i =>
    simp only [Task.ofCall]
    split <;> rfl
  | _ => rfl

theorem Finding.enter {m : Mode} {luck : Bool} {next : Task G α} {s : Shared G α} {c : Client G α}
    (hnext : next.finds = false) (hk : c.task.finds = false) :
    Finding s c.task (enter m luck next s c).2.task := by
  refine enter_task (P := Finding s c.task) ?_ ?_
  · exact .nothing hnext
  · exact .nothing hk

theorem finds_afterMeasure (need? : Option Nat) (found : Nat) :
    (Task.afterMeasure (G := G) (α := α) need? found).finds = false := by
  cases need? with
  | none => rfl
  | some n =>
    simp only [Task.afterMeasure]
    split <;> rfl

theorem finds_ofReserved (limits : Limits) (v : α) (reserved maxCapacity : Nat) :
    (Task.ofReserved (G := G) limits v reserved maxCapacity).finds = false := by
  unfold Task.ofReserved
  split <;> rfl

theorem finds_afterValid (i len : Nat) (v? : Option α) :
    (Task.afterValid (G := G) i len v?).finds = false := by
  cases v? with
  | none => rfl
  | some v =>
    simp only [Task.afterValid]
    split <;> rfl

/-- An append that finds every index taken is refused, or broken off at the size it asks for. -/
theorem ending_ofReserved {s : Shared G α} {k : Task G α} {v : α} {last? : Option (Answer α)}
    (hserves : ∀ call, k.Serves call → call = .append v)
    (h : (Task.ofReserved s.limits v s.reserved s.maxCapacity : Task G α) = .rest last?) :
    ∃ a, last? = some a ∧ Ending s k a := by
  unfold Task.ofReserved at h
  split at h
  · cases h
  · cases h
    refine ⟨_, rfl, ?_⟩
    unfold Answer.full
    split
    · exact .full hserves
    · exact .overflow hserves

/-- A valid try ends with the value that was loaded, or beyond the length that was seen. -/
theorem answer_of_afterValid {i len : Nat} {v? : Option α} {a : Answer α}
    (h : (Task.afterValid i len v? : Task G α) = .answer a) :
    (∃ v, a = .value v ∧ v? = some v ∧ i < len) ∨
      a = .refused (.indexOutOfBounds i len) ∧ (v? = none ∨ len ≤ i) := by
  cases v? with
  | none =>
    cases h
    exact .inr ⟨rfl, .inl rfl⟩
  | some v =>
    simp only [Task.afterValid] at h
    split at h
    · rename_i hlt
      cases h
      exact .inl ⟨v, rfl, rfl, hlt⟩
    · rename_i hge
      cases h
      exact .inr ⟨rfl, .inr (Nat.le_of_not_lt hge)⟩

variable [Inhabited α]

theorem finding (luck : Bool) (s : Shared G α) (c : Client G α) (hbusy : c.task.rests = false) :
    Finding s c.task (step luck s c).2.task := by
  rcases c with ⟨place, task⟩
  cases task with
  | rest => cases hbusy
  | measure need? =>
    simp only [step]
    split
    · exact .nothing (finds_afterMeasure need? _)
    · exact Finding.enter (c := ⟨place, .measure need?⟩) rfl rfl
  | measureInside need? => exact .measure
  | measureLeave need? found => exact .nothing (finds_afterMeasure need? found)
  | reserve v => exact .nothing (finds_ofReserved _ v _ _)
  | reserveSwap v seen =>
    simp only [step]
    split
    · exact .nothing rfl
    · exact .nothing (finds_ofReserved _ v _ _)
  | placeEnter i v => exact .enter rfl rfl
  | placeSlot i v p =>
    simp only [step]
    split <;> exact .nothing rfl
  | placeLeave i v written => cases written <;> exact .nothing rfl
  | growEnter g => exact .enter rfl rfl
  | growPointer g =>
    simp only [step]
    split
    · cases g <;> exact .nothing rfl
    · split
      · exact .full
      · dsimp only
        split
        · exact .nothing rfl
        · exact .overflow
  | copy g p target buffer =>
    simp only [step]
    split <;> exact .nothing rfl
  | publish g target buffer => cases g <;> exact .nothing rfl
  | fitSlot i v p =>
    simp only [step]
    split
    · exact .nothing rfl
    · rename_i hnot
      exact .broken rfl (Nat.le_of_not_lt hnot)
  | growLeave g => cases g <;> exact .nothing rfl
  | await i =>
    simp only [step]
    split <;> exact .nothing rfl
  | tryStamp i left =>
    cases left with
    | zero => exact .nothing rfl
    | succ left =>
      simp only [step]
      split
      · rename_i hstamp
        exact .stamp hstamp
      · exact .nothing rfl
  | tryLength i left stamp => exact .tryLength
  | tryPointer i left stamp len => exact .tryName
  | trySlot i left stamp len p => exact .trySlot
  | tryValid i left stamp len v? =>
    simp only [step]
    split
    · exact .nothing (finds_afterValid i len v?)
    · exact .nothing rfl
  | accessEnter i a => exact .enter rfl rfl
  | accessLength i a =>
    rcases Nat.lt_or_ge i s.committed with hlt | hge
    · simp only [step, checkBounds, if_pos hlt]
      exact .within hlt
    · simp only [step, checkBounds, if_neg (Nat.not_lt.mpr hge)]
      exact .beyond hge
  | accessPointer i a => exact .name
  | accessSlot i a p =>
    cases hold : s.stores.get? p i with
    | none =>
      simp only [step, Access.perform, hold]
      exact .broken rfl (Stores.get?_eq_none_iff.mp hold)
    | some old =>
      cases a with
      | load =>
        simp only [step, Access.perform, hold]
        exact .load hold
      | store v =>
        simp only [step, Access.perform, hold]
        refine .stored (Nat.lt_of_not_le fun hle => ?_)
        rw [Stores.get?_eq_none_iff.mpr hle] at hold
        cases hold
  | collectEnter => exact .enter rfl rfl
  | collectLength p => exact .bound
  | collect p n buffer =>
    simp only [step]
    split
    · rename_i hmore
      split
      · rename_i hv
        exact .collect hmore hv
      · rename_i hold
        refine .broken ?_ (Stores.get?_eq_none_iff.mp hold)
        simp only [Task.touches?, if_pos hmore]
    · rename_i hall
      exact .copied (Nat.le_of_not_lt hall)
  | _ => exact .nothing rfl

omit [Inhabited α] in
/-- A thread that is on its way into a mode does not come to rest. -/
theorem rests_enter {m : Mode} {luck : Bool} {next : Task G α} (s : Shared G α) {c : Client G α}
    (hnext : next.rests = false) (hbusy : c.task.rests = false) :
    (enter m luck next s c).2.task.rests = false :=
  enter_task (P := fun k => k.rests = false) hnext hbusy

theorem ending {luck : Bool} {s : Shared G α} {c : Client G α} {last? : Option (Answer α)}
    (hbusy : c.task.rests = false) (h : (step luck s c).2.task = .rest last?) :
    ∃ a, last? = some a ∧ Ending s c.task a := by
  have hrests {k : Task G α} (hk : k.rests = false) : k ≠ .rest last? := by
    rintro rfl
    cases hk
  rcases c with ⟨place, task⟩
  cases task with
  | rest => cases hbusy
  | length =>
    cases h
    exact ⟨_, rfl, .length⟩
  | measure need? =>
    simp only [step] at h
    split at h
    · cases need? with
      | none =>
        cases h
        exact ⟨_, rfl, .measure⟩
      | some n =>
        simp only [Task.afterMeasure] at h
        split at h
        · cases h
          exact ⟨_, rfl, .roomy (n := n) fun _ hserves => hserves⟩
        · cases h
    · exact absurd h (hrests (rests_enter s rfl rfl))
  | measureLeave need? found =>
    cases need? with
    | none =>
      cases h
      exact ⟨_, rfl, .measureLeave⟩
    | some n =>
      simp only [step, leave, Task.afterMeasure] at h
      split at h
      · cases h
        exact ⟨_, rfl, .roomy (n := n) fun _ hserves => hserves⟩
      · cases h
  | reserve v => exact ending_ofReserved (fun _ hserves => hserves) h
  | reserveSwap v seen =>
    simp only [step] at h
    split at h
    · cases h
    · exact ending_ofReserved (fun _ hserves => hserves) h
  | placeEnter | growEnter | accessEnter | collectEnter =>
    exact absurd h (hrests (rests_enter s rfl rfl))
  | placeLeave i v written => cases written <;> cases h
  | growLeave g =>
    cases g with
    | fit i v => cases h
    | reserve n =>
      cases h
      exact ⟨_, rfl, .roomy (n := n) fun _ hserves => hserves⟩
  | publish g target buffer => cases g <;> cases h
  | commit i =>
    cases h
    exact ⟨_, rfl, .commit⟩
  | tryStamp i left =>
    cases left with
    | zero => cases h
    | succ left =>
      simp only [step] at h
      split at h <;> cases h
  | tryValid i left stamp len v? =>
    simp only [step] at h
    split at h
    · rename_i hvalid
      cases v? with
      | none =>
        cases h
        exact ⟨_, rfl, .valid hvalid rfl⟩
      | some v =>
        simp only [Task.afterValid] at h
        split at h
        · rename_i hlt
          cases h
          exact ⟨_, rfl, .valid hvalid (by simp only [Task.afterValid, if_pos hlt])⟩
        · rename_i hge
          cases h
          exact ⟨_, rfl, .valid hvalid (by simp only [Task.afterValid, if_neg hge])⟩
    · cases h
  | growPointer g =>
    simp only [step] at h
    split at h
    · cases g <;> cases h
    · split at h
      · cases h
      · dsimp only at h
        split at h <;> cases h
  | leave a =>
    cases h
    exact ⟨a, rfl, .leave⟩
  | placeSlot | copy | fitSlot | await | accessLength | accessSlot =>
    simp only [step] at h
    split at h <;> cases h
  | collect p n buffer =>
    simp only [step] at h
    split at h
    · split at h <;> cases h
    · cases h
  | _ => cases h

end

/-! ## In every run -/

namespace Setup

variable {α : Type} [Inhabited α] (S : Setup α)

/-- Element `i` is `v`: the index is committed, and the slot of the current store holds it. -/
def Element (G : Gate) (i : Nat) (v : α) (past : List (Turn (Call α))) : Prop :=
  i < (S.after G past).shared.committed ∧ (S.after G past).shared.stores.slot? i = some v

/-- Thread `t` holds the gate in mode `m`. -/
def Holding (G : Gate) (m : Mode) (t : Nat) (past : List (Turn (Call α))) : Prop :=
  ∃ c, (S.after G past).threads[t]? = some c ∧ G.holds m c.place = true

/-- The length is `len`. -/
def Length (G : Gate) (len : Nat) (past : List (Turn (Call α))) : Prop :=
  (S.after G past).shared.committed = len

/-- The number of slots is `n`. -/
def Capacity (G : Gate) (n : Nat) (past : List (Turn (Call α))) : Prop :=
  (S.after G past).shared.stores.capacity = n

/-- The latest deposit is `d`. -/
def LastDeposit (G : Gate) (d : Deposit α) (past : List (Turn (Call α))) : Prop :=
  (S.deposits G past).getLast? = some d

/-- What a thread has found out by a task, it found out in the call it is at. -/
def Found (G : Gate) (turns : List (Turn (Call α))) (t : Nat) : Task G α → Prop
  | .accessPointer i _ | .accessSlot i _ _ => i < (S.after G turns).shared.committed
  | .collect _ n _ => n ≤ (S.after G turns).shared.committed
  | .measureLeave _ found => S.During G t (S.Capacity G found) turns
  | .leave (.value v) => ∀ i, Machine.lastCall? (S.history G turns) t = some (.read i) →
    S.During G t (fun past => S.Holding G .shared t past ∧ S.Element G i v past) turns
  | .leave (.refused e) => ∀ i, Machine.lastCall? (S.history G turns) t = some (.read i) →
    ∃ len, e = .indexOutOfBounds i len ∧ len ≤ i ∧ S.During G t (S.Length G len) turns
  | .leave .done => ∀ i v, Machine.lastCall? (S.history G turns) t = some (.write i v) →
    ∃ name, S.During G t (S.LastDeposit G ⟨t, false, name, i, v⟩) turns
  | .tryPointer _ _ _ len | .trySlot _ _ _ len _ | .tryValid _ _ _ len _ =>
    len ≤ (S.after G turns).shared.committed ∧ S.During G t (S.Length G len) turns
  | _ => True

variable {S} {G : Gate} {k : GateKind} {turns : List (Turn (Call α))} {t : Nat}

theorem found_of_finds {task : Task G α} (h : task.finds = false) : S.Found G turns t task := by
  cases task with
  | accessPointer | accessSlot | tryLength | tryPointer | trySlot | tryValid | collect | measureLeave
  | leave =>
    cases h
  | _ => exact trivial

theorem busy_after {c : Client G α} (ht : (S.after G turns).threads[t]? = some c)
    (hbusy : c.task.rests = false) :
    (machine G α).Busy
      ((machine G α).run (idle G S.store S.len S.config S.threads S.limits) turns) t :=
  ⟨c, ht, hbusy⟩

theorem committed_le_concat (S : Setup α) (k : GateKind) (turns : List (Turn (Call α)))
    (turn : Turn (Call α)) :
    (S.after k.gate turns).shared.committed ≤ (S.after k.gate (turns ++ [turn])).shared.committed := by
  rw [after_concat]
  exact (S.sound_after k turns).committed_le_act turn

theorem get?_put_after {turn : Turn (Call α)} {c d : Client G α} {s : Shared G α}
    (ht : (S.after G turns).threads[t]? = some c)
    (hput : (machine G α).act (S.after G turns) turn = (S.after G turns).put t s d) :
    (S.after G (turns ++ [turn])).threads[t]? = some d := by
  rw [after_concat, hput, Pool.getElem?_put_iff ht]
  exact .inl ⟨rfl, rfl⟩

theorem lastDeposit_concat (S : Setup α) {c : Client G α} {d : Deposit α}
    (ht : (S.after G turns).threads[t]? = some c)
    (hdeposit : c.task.deposit? t (S.after G turns).shared.stores = some d) (luck : Bool) :
    S.LastDeposit G d (turns ++ [.step t luck]) := by
  have hseen : deposited? (S.after G turns) (.step t luck) = some d :=
    (Machine.seenOfStep?_of_step ht).trans hdeposit
  rw [LastDeposit, deposits_concat, hseen, Option.toList_some, List.getLast?_concat]

/-- Another turn takes nothing away from what a thread has found out. -/
theorem Found.pass {turn : Turn (Call α)} {c d : Client k.gate α}
    (ht : (S.after k.gate turns).threads[t]? = some c) (hbusy : c.task.rests = false)
    (ht' : (S.after k.gate (turns ++ [turn])).threads[t]? = some d) (hbusy' : d.task.rests = false)
    {task : Task k.gate α} (h : S.Found k.gate turns t task) :
    S.Found k.gate (turns ++ [turn]) t task := by
  have hcommitted := S.committed_le_concat k turns turn
  have hcall := S.lastCall?_of_busy ht hbusy turn
  have hlater {P : List (Turn (Call α)) → Prop} (hP : S.During k.gate t P turns) :
      S.During k.gate t P (turns ++ [turn]) := .later hP (busy_after ht' hbusy')
  cases task with
  | accessPointer i a => exact Nat.lt_of_lt_of_le h hcommitted
  | accessSlot i a p => exact Nat.lt_of_lt_of_le h hcommitted
  | collect p n buffer => exact Nat.le_trans h hcommitted
  | measureLeave need? found => exact hlater h
  | tryPointer i left stamp len => exact ⟨Nat.le_trans h.1 hcommitted, hlater h.2⟩
  | trySlot i left stamp len p => exact ⟨Nat.le_trans h.1 hcommitted, hlater h.2⟩
  | tryValid i left stamp len v? => exact ⟨Nat.le_trans h.1 hcommitted, hlater h.2⟩
  | leave a =>
    cases a with
    | value v =>
      intro i hi
      exact hlater (h i (hcall ▸ hi))
    | done =>
      intro i v hi
      obtain ⟨name, hlast⟩ := h i v (hcall ▸ hi)
      exact ⟨name, hlater hlast⟩
    | refused e =>
      intro i hi
      obtain ⟨len, he, hle, hlen⟩ := h i (hcall ▸ hi)
      exact ⟨len, he, hle, hlater hlen⟩
    | _ => exact trivial
  | _ => exact trivial

/-- What a thread under way has found out is so. -/
theorem found_after {c : Client k.gate α} (ht : (S.after k.gate turns).threads[t]? = some c)
    (hbusy : c.task.rests = false) : S.Found k.gate turns t c.task := by
  refine Machine.busy_invariant (m := machine k.gate α)
    (fun turns t c => S.Found k.gate turns t c.task) rests_idle ?_ ?_ ?_ ht hbusy
  · intro turns t c call _ _
    exact found_of_finds (finds_ofCall call)
  · intro turns t c luck ht hbusy hfound hbusy'
    have ht' : (S.after k.gate (turns ++ [.step t luck])).threads[t]? = some _ :=
      get?_put_after ht (Machine.act_step ht hbusy)
    have hpass := hfound.pass ht hbusy ht' hbusy'
    have hcall := S.lastCall?_of_busy ht hbusy (.step t luck)
    obtain ⟨call, hlast, hserves⟩ := S.serves_after ht hbusy
    have hnow {P : List (Turn (Call α)) → Prop} (hP : P turns) :
        S.During k.gate t P (turns ++ [.step t luck]) :=
      .later (.now (busy_after ht hbusy) hP) (busy_after ht' hbusy')
    have hknows := (S.sound_after k turns).informed.knows ht
    have hfinding := finding luck (S.after k.gate turns).shared c hbusy
    change S.Found k.gate _ t (step luck (S.after k.gate turns).shared c).2.task
    generalize (step luck (S.after k.gate turns).shared c).2.task = next at hfinding
    rcases c with ⟨place, task⟩
    cases hfinding with
    | nothing hfinds => exact found_of_finds hfinds
    | within hi => exact Nat.lt_of_lt_of_le hi (S.committed_le_concat k turns _)
    | @beyond i a hge =>
      intro j hj
      rw [hcall, hlast] at hj
      obtain rfl : call = a.call i := hserves
      cases a with
      | load =>
        cases hj
        exact ⟨_, rfl, hge, hnow rfl⟩
      | store v => cases hj
    | name => exact hpass
    | @load i p v hv =>
      intro j hj
      rw [hcall, hlast] at hj
      obtain rfl : call = .read i := hserves
      cases hj
      obtain rfl : p = _ := hknows
      exact hnow ⟨⟨_, ht, (S.sound_after k turns).orderly.stands ht⟩, hfound, hv⟩
    | @stored i p v hlt =>
      intro j u hj
      rw [hcall, hlast] at hj
      obtain rfl : call = .write i v := hserves
      cases hj
      have hdeposit : (Task.accessSlot i (.store v) p : Task k.gate α).deposit? t
          (S.after k.gate turns).shared.stores = some ⟨t, false, p, i, v⟩ := by
        simp only [Task.deposit?, if_pos hlt]
      exact ⟨p, .now (busy_after ht' hbusy') (S.lastDeposit_concat ht hdeposit luck)⟩
    | broken | overflow => exact trivial
    | @full g e =>
      intro j hj
      rw [hcall, hlast] at hj
      obtain rfl : call = g.call := hserves
      cases g <;> cases hj
    | stamp => exact trivial
    | tryLength => exact ⟨S.committed_le_concat k turns _, hnow rfl⟩
    | tryName => exact hpass
    | trySlot => exact hpass
    | bound => exact Nat.le_trans (Nat.min_le_left _ _) (S.committed_le_concat k turns _)
    | collect => exact hpass
    | copied => exact trivial
    | measure => exact hnow rfl
  · intro turns t c turn _ ht ht' hbusy hfound
    exact hfound.pass ht hbusy ht' hbusy

/-- A call is answered by a step of its thread, in one of these ways. -/
theorem ending_of_answered {turn : Turn (Call α)} {a : Answer α}
    (h : (machine G α).event? (S.after G turns) turn = some (.answered t a)) :
    ∃ luck c, turn = .step t luck ∧ (S.after G turns).threads[t]? = some c ∧
      c.task.rests = false ∧ Ending (S.after G turns).shared c.task a := by
  obtain ⟨luck, c, hturn, ht, hbusy, hrest, hr⟩ := Machine.step_of_answered h
  change (step luck (S.after G turns).shared c).2.task.rests = true at hrest
  change (step luck (S.after G turns).shared c).2.task.reply? = some a at hr
  cases htask : (step luck (S.after G turns).shared c).2.task with
  | rest last? =>
    obtain ⟨b, hb, hending⟩ := ending hbusy htask
    rw [htask, show (Task.rest last? : Task G α).reply? = last? from rfl, hb] at hr
    cases hr
    exact ⟨luck, c, hturn, ht, hbusy, hending⟩
  | _ =>
    rw [htask] at hrest
    cases hrest

end Setup

end Growable.SharedArray.Gated
