import Growable.Proofs.Lock.FlaggedAdmission
import Growable.Proofs.SharedArray.Alone.Gated
import Growable.Proofs.SharedArray.Gated.Prefix
import Growable.Proofs.Waiting

/-!
# Nobody waits for ever

Threads of an array wait for three things: for the gate, for their turn to commit, and, at a flag or
behind a change, for a thread inside the gate. None of the waits closes a circle. A thread inside
waits for nothing and gets out by itself. Once nobody is inside, the gate lets in one of those on
their way. And a thread that waits for its turn is outside: the thread that has the next index
either is at work, or it is its turn.

So every thread is given a rank by how far its call has come, and whatever state is reached, some
thread gets on to a lower rank by steps of its own until no call is under way.

An append whose growth the machine has no room for is broken off and gives up its index for good.
Nobody waits behind such an index: a thread that waits for its turn has written its slot, and an
index whose slot is there is never given up.
-/

namespace Growable.SharedArray

/-- The word of a gate counts the threads that are inside and those that wait. -/
def GateKind.Counts : (k : GateKind) → k.gate.Word → List k.gate.Place → Prop
  | stamped => Lock.Stamped.Counts
  | layout => Lock.Layout.Counts
  | flagged => Lock.Flagged.Counts

theorem GateKind.counts : (k : GateKind) → k.gate.Excludes k.Counts k.Toward
  | stamped => Lock.Gate.counts_stamped
  | layout => Lock.Gate.counts_layout
  | flagged => Lock.Gate.counts_flagged

theorem GateKind.admits : (k : GateKind) → k.gate.Admits k.Counts k.Toward
  | stamped => Lock.Gate.admits_stamped
  | layout => Lock.Gate.admits_layout
  | flagged => Lock.Gate.admits_flagged

namespace Gated

open Lock (Gate Mode)

variable {G : Gate} {α : Type}

/-! ## Ranks -/

/-- How far a call is from its end, in ways in and out of the gate. -/
def Task.phase : Task G α → Nat
  | .rest _ => 0
  | .length | .await _ | .commit _ => 1
  | .growPointer _ | .copy .. | .publish .. | .fitPointer .. | .fitSlot .. | .growLeave _
  | .accessLength .. | .accessPointer .. | .accessSlot .. | .collectPointer | .collectLength _
  | .collect .. | .leave _ => 2
  | .growEnter _ => 3
  | .measureInside _ | .measureLeave .. | .placePointer .. | .placeSlot .. | .placeLeave .. => 4
  | .measure _ | .placeEnter .. | .accessEnter .. | .collectEnter => 5
  | .reserve _ | .reserveSwap .. | .tryAll _ | .tryStamp .. | .tryLength .. | .tryPointer ..
  | .trySlot .. | .tryValid .. => 6

/-- How many steps a thread by itself takes at most before it is through with the phase. -/
def Task.weight (s : Shared G α) : Task G α → Nat
  | .reserve _ => 3
  | .reserveSwap _ seen => if s.reserved = seen then 1 else 2
  | .tryAll _ => 5 * s.tries + 2
  | .tryStamp _ left => 5 * left + 1
  | .tryLength _ left .. => 5 * left + 5
  | .tryPointer _ left .. => 5 * left + 4
  | .trySlot _ left .. => 5 * left + 3
  | .tryValid _ left .. => 5 * left + 2
  | .growPointer _ => s.stores.capacity + 5
  | .copy _ _ _ buffer => s.stores.capacity - buffer.size + 4
  | .publish .. => 3
  | .collectPointer => s.stores.capacity + 3
  | .collectLength _ => s.stores.capacity + 2
  | .collect _ n buffer => n - buffer.size + 1
  | .accessLength .. => 3
  | .fitPointer .. | .accessPointer .. | .placePointer .. => 2
  | .fitSlot .. | .accessSlot .. | .placeSlot .. | .measureInside _ | .await _ => 1
  | _ => 0

/-- A call is under way, and its next step waits for no other thread. -/
structure Task.GoesOn (s : Shared G α) (k : Task G α) : Prop where
  busy : k.rests = false
  stands : ∀ m, k.stance ≠ .toward m
  turn : ∀ i, k = .await i → s.committed = i

/-- Where a task may wait for another thread, or there is no next step, it has the least weight of its
phase. -/
theorem Task.goesOn_of_less {s s' : Shared G α} {k k' : Task G α} (hphase : k'.phase = k.phase)
    (hless : k'.weight s' < k.weight s) : k'.GoesOn s' := by
  have hnone : k.phase = 0 ∨ k.phase = 3 ∨ k.phase = 5 → k.weight s = 0 := by
    intro h
    cases k with
    | rest | growEnter | measure | placeEnter | accessEnter | collectEnter => rfl
    | _ => rcases h with h | h | h <;> cases h
  have hone : k.phase = 1 → k.weight s ≤ 1 := by
    intro h
    cases k with
    | length | commit => exact Nat.zero_le 1
    | await => exact Nat.le_refl 1
    | _ => cases h
  cases k' with
  | rest => exact absurd hless (hnone (.inl hphase.symm) ▸ Nat.not_lt_zero _)
  | growEnter => exact absurd hless (hnone (.inr (.inl hphase.symm)) ▸ Nat.not_lt_zero _)
  | measure | placeEnter | accessEnter | collectEnter =>
    exact absurd hless (hnone (.inr (.inr hphase.symm)) ▸ Nat.not_lt_zero _)
  | await => exact absurd hless (Nat.not_lt_of_le (hone hphase.symm))
  | _ =>
    refine ⟨rfl, ?_, ?_⟩
    · intro m hm
      cases hm
    · intro i hi
      cases hi

/-- A task is less far from its end than another, or in the same phase with fewer steps left. -/
inductive Task.Nearer (s : Shared G α) (k : Task G α) (s' : Shared G α) (k' : Task G α) : Prop
  | phase : k'.phase < k.phase → Nearer s k s' k'
  | step : k'.phase = k.phase → k'.weight s' < k.weight s → Nearer s k s' k'

theorem nearer_afterMeasure {s s' : Shared G α} {k : Task G α} (need? : Option Nat) (found : Nat)
    (hk : 3 < k.phase) : Task.Nearer s k s' (.afterMeasure need? found) := by
  refine .phase (Nat.lt_of_le_of_lt ?_ hk)
  cases need? with
  | none => exact Nat.zero_le 3
  | some n =>
    unfold Task.afterMeasure
    dsimp only
    split
    · exact Nat.zero_le 3
    · exact Nat.le_refl 3

theorem nearer_ofReserved {s : Shared G α} {k : Task G α} (v : α) (hphase : k.phase = 6)
    (hweight : 1 < k.weight s) :
    Task.Nearer s k s (.ofReserved s.limits v s.reserved s.maxCapacity) := by
  unfold Task.ofReserved
  split
  · refine .step hphase.symm ?_
    simpa [Task.weight] using hweight
  · exact .phase (hphase ▸ Nat.zero_lt_succ 5)

theorem nearer_afterGrowth {s s' : Shared G α} {k : Task G α} (g : Growth α) (hphase : k.phase = 2)
    (hweight : 2 < k.weight s) : Task.Nearer s k s' (.afterGrowth g) := by
  cases g with
  | fit i v => exact .step hphase.symm hweight
  | reserve n => exact .step hphase.symm (Nat.zero_lt_of_lt hweight)

theorem phase_afterValid (i len : Nat) (v? : Option α) :
    (Task.afterValid (G := G) i len v?).phase = 0 := by
  cases v? with
  | none => rfl
  | some v =>
    unfold Task.afterValid
    dsimp only
    split <;> rfl

variable [Inhabited α]

/-- A step that waits for no other thread brings the call nearer to its end. -/
theorem nearer_step {s : Shared G α} {c : Client G α} (hlive : s.stores.Live)
    (hknows : c.task.Knows s.stores s.limits s.maxCapacity) (hgoes : c.task.GoesOn s) :
    Task.Nearer s c.task (step true s c).1 (step true s c).2.task := by
  rcases c with ⟨place, task⟩
  cases task with
  | rest => cases hgoes.busy
  | length => exact .phase (Nat.lt_succ_self 0)
  | measure need? =>
    by_cases hopt : G.optimistic = true
    · simp only [step, hopt, if_true]
      exact nearer_afterMeasure need? _ (show 3 < 5 by decide)
    · refine absurd ?_ (hgoes.stands .shared)
      simp [Task.stance, hopt]
  | measureInside need? => exact .step rfl (Nat.lt_succ_self 0)
  | measureLeave need? found => exact nearer_afterMeasure need? found (show 3 < 4 by decide)
  | reserve v => exact nearer_ofReserved v rfl (show 1 < 3 by decide)
  | reserveSwap v seen =>
    by_cases hseen : s.reserved = seen
    · simp only [step, Bool.true_and, beq_iff_eq, hseen, if_true]
      exact .phase (Nat.lt_succ_self 5)
    · simp only [step, Bool.true_and, beq_iff_eq, hseen, if_false]
      exact nearer_ofReserved v rfl (by simp [Task.weight, hseen])
  | placePointer i v => exact .step rfl (Nat.lt_succ_self 1)
  | placeSlot i v p =>
    simp only [step]
    split
    · exact .step rfl (Nat.lt_succ_self 0)
    · exact .step rfl (Nat.lt_succ_self 0)
  | placeLeave i v written =>
    cases written with
    | true => exact .phase (show 1 < 4 by decide)
    | false => exact .phase (show 3 < 4 by decide)
  | growPointer g =>
    have hcapacity : 5 ≤ Task.weight s (.growPointer g) := Nat.le_add_left 5 _
    simp only [step]
    split
    · exact nearer_afterGrowth g rfl (by omega)
    · split
      · exact .step rfl (Nat.lt_of_lt_of_le (Nat.zero_lt_succ 4) hcapacity)
      · dsimp only
        split
        · refine .step rfl ?_
          simp [Task.weight]
        · exact .step rfl (Nat.lt_of_lt_of_le (Nat.zero_lt_succ 4) hcapacity)
  | copy g p target buffer =>
    obtain ⟨rfl, -⟩ := hknows
    simp only [step]
    cases hold : s.stores.get? s.stores.current buffer.size with
    | some v =>
      have hlt : buffer.size < s.stores.capacity := by
        rcases Nat.lt_or_ge buffer.size s.stores.capacity with hlt | hge
        · exact hlt
        · rw [← Stores.slot?, hlive.slot?_eq_none_iff.mpr hge] at hold
          cases hold
      refine .step rfl ?_
      simp only [Task.weight, Array.size_push]
      omega
    | none => exact .step rfl (Nat.le_add_left 4 _)
  | publish g target buffer => exact nearer_afterGrowth g rfl (Nat.lt_succ_self 2)
  | fitPointer i v => exact .step rfl (Nat.lt_succ_self 1)
  | fitSlot i v p =>
    simp only [step]
    split
    · exact .step rfl (Nat.lt_succ_self 0)
    · exact .step rfl (Nat.lt_succ_self 0)
  | growLeave g =>
    cases g with
    | fit i v => exact .phase (Nat.lt_succ_self 1)
    | reserve n => exact .phase (Nat.zero_lt_succ 1)
  | await i =>
    simp only [step, if_pos (hgoes.turn i rfl)]
    exact .step rfl (Nat.lt_succ_self 0)
  | commit i => exact .phase (Nat.lt_succ_self 0)
  | tryAll i => exact .step rfl (Nat.lt_succ_self _)
  | tryStamp i left =>
    cases left with
    | zero => exact .phase (Nat.lt_succ_self 5)
    | succ left =>
      simp only [step]
      split
      · refine .step rfl ?_
        simp only [Task.weight]
        omega
      · refine .step rfl ?_
        simp only [Task.weight]
        omega
  | tryLength i left stamp => exact .step rfl (Nat.lt_succ_self _)
  | tryPointer i left stamp len => exact .step rfl (Nat.lt_succ_self _)
  | trySlot i left stamp len p => exact .step rfl (Nat.lt_succ_self _)
  | tryValid i left stamp len v? =>
    simp only [step]
    split
    · refine .phase ?_
      rw [phase_afterValid]
      exact Nat.zero_lt_succ 5
    · exact .step rfl (Nat.lt_succ_self _)
  | accessLength i a =>
    simp only [step]
    split
    · exact .step rfl (Nat.lt_succ_self 2)
    · exact .step rfl (Nat.zero_lt_succ 2)
  | accessPointer i a => exact .step rfl (Nat.lt_succ_self 1)
  | accessSlot i a p =>
    simp only [step]
    split
    · exact .step rfl (Nat.lt_succ_self 0)
    · exact .step rfl (Nat.lt_succ_self 0)
  | collectPointer => exact .step rfl (Nat.lt_succ_self _)
  | collectLength p =>
    obtain rfl : p = s.stores.current := hknows
    refine .step rfl ?_
    have hle : min s.committed (s.stores.capacityOf s.stores.current) ≤ s.stores.capacity :=
      Nat.min_le_right ..
    simp only [step, Task.weight]
    omega
  | collect p n buffer =>
    simp only [step]
    split
    · split
      · refine .step rfl ?_
        simp only [Task.weight, Array.size_push]
        omega
      · exact .step rfl (Nat.zero_lt_succ _)
    · exact .step rfl (Nat.zero_lt_succ _)
  | leave a => exact .phase (Nat.zero_lt_succ 1)
  | placeEnter | accessEnter | collectEnter => exact absurd rfl (hgoes.stands .shared)
  | growEnter => exact absurd rfl (hgoes.stands .exclusive)

/-- A thread that waits for no other gets through with its phase. -/
theorem goes_of_goesOn {s : Shared G α} {c : Client G α} (t : Nat) (hlive : s.stores.Live)
    (hknows : c.task.Knows s.stores s.limits s.maxCapacity) (hgoes : c.task.GoesOn s) :
    ∃ n b, (machine G α).Goes t n (s, c) b ∧ b.2.task.phase < c.task.phase := by
  refine Machine.goes_of_weight
    (fun a => a.1.stores.Live ∧ a.2.task.Knows a.1.stores a.1.limits a.1.maxCapacity ∧
      a.2.task.GoesOn a.1 ∧ a.2.task.phase = c.task.phase)
    (fun a => a.2.task.phase < c.task.phase) (fun a => a.2.task.weight a.1) ?_
    (a := (s, c)) ⟨hlive, hknows, hgoes, rfl⟩
  rintro ⟨s, d⟩ ⟨hlive, hknows, hgoes, hphase⟩
  refine ⟨hgoes.busy, ?_⟩
  obtain ⟨hstoring, hmax, hknows'⟩ := storing true s d hlive hknows
  have hlimits := limits_step true s d
  change (step true s d).2.task.phase < _ ∨ (_ ∧ _ ∧ _ ∧ (step true s d).2.task.phase = _) ∧
    (step true s d).2.task.weight (step true s d).1 < _
  rcases nearer_step hlive hknows hgoes with hlower | ⟨hsame, hless⟩
  · exact .inl (hphase ▸ hlower)
  · rw [← hmax, ← hlimits] at hknows'
    exact .inr ⟨⟨hstoring.live hlive, hknows', Task.goesOn_of_less hsame hless,
      hsame.trans hphase⟩, hless⟩

/-! ## Through the gate -/

/-- What a task on its way into a mode goes on with once the mode is granted. -/
def Task.granted : Task G α → Task G α
  | .measure need? => .measureInside need?
  | .placeEnter i v => .placePointer i v
  | .growEnter g => .growPointer g
  | .accessEnter i a => .accessLength i a
  | .collectEnter => .collectPointer
  | k => k

omit [Inhabited α] in
theorem rests_of_inside {k : Task G α} (h : k.stance.isInside = true) : k.rests = false := by
  cases k with
  | rest => cases h
  | _ => rfl

omit [Inhabited α] in
theorem rests_of_toward {k : Task G α} {m : Mode} (h : k.stance = .toward m) : k.rests = false := by
  cases k with
  | rest => cases h
  | _ => rfl

omit [Inhabited α] in
theorem phase_granted {k : Task G α} {m : Mode} (h : k.stance = .toward m) :
    k.granted.phase < k.phase := by
  cases k with
  | measure | placeEnter => exact Nat.lt_succ_self 4
  | growEnter => exact Nat.lt_succ_self 2
  | accessEnter | collectEnter => exact show 2 < 5 by decide
  | _ => cases h

theorem step_toward {m : Mode} (luck : Bool) (s : Shared G α) {c : Client G α}
    (h : c.task.stance = .toward m) : step luck s c = enter m luck c.task.granted s c := by
  rcases c with ⟨place, task⟩
  cases task with
  | measure need? =>
    by_cases hopt : G.optimistic = true
    · simp [Task.stance, hopt] at h
    · obtain rfl : Mode.shared = m := by simpa [Task.stance, hopt] using h
      simp [step, hopt, Task.granted]
  | placeEnter | growEnter | accessEnter | collectEnter =>
    cases h
    rfl
  | _ => cases h

/-- A thread that the gate lets in gets on with its call. -/
theorem goes_of_enters {s : Shared G α} {c : Client G α} {m : Mode} (t : Nat)
    (hstance : c.task.stance = .toward m) (h : G.Enters m (s.gate, c.place)) :
    ∃ n b, (machine G α).Goes t n (s, c) b ∧ b.2.task.phase < c.task.phase := by
  obtain ⟨n, b, hseeks⟩ := h
  rcases c with ⟨place, task⟩
  have hstep (s : Shared G α) (p : G.Place) :
      step true s ⟨p, task⟩ = enter m true task.granted s ⟨p, task⟩ :=
    step_toward true s (c := ⟨p, task⟩) hstance
  exact ⟨n, _, goes_of_seeks s (rests_of_toward hstance) hstep hseeks, phase_granted hstance⟩

/-- Some thread gets through with a phase of its call by itself. -/
def GetsOn (p : Pool (Shared G α) (Client G α)) : Prop :=
  ∃ (t n : Nat) (c : Client G α) (b : Shared G α × Client G α), p.threads[t]? = some c ∧
    (machine G α).Goes t n (p.shared, c) b ∧ b.2.task.phase < c.task.phase

/-! ## In every run -/

/-- What becomes in a turn of index `i`, which thread `t` has at a task: the thread keeps it, or
commits it and is answered with it, or is broken off because the machine has no room for the growth.
-/
inductive Fate (s : Shared G α) (t i : Nat) (k : Task G α)
    (e : Option (Machine.Event (Call α) (Answer α))) (p' : Pool (Shared G α) (Client G α)) : Prop
  | keeps {d : Client G α} : p'.threads[t]? = some d → d.task.owns? = some i → Fate s t i k e p'
  | commits : e = some (.answered t (.index i)) → p'.shared.committed = i + 1 → Fate s t i k e p'
  | breaksOff {v : α} {d : Client G α} : k = .growPointer (.fit i v) → s.Lost i →
      p'.threads[t]? = some d → d.task = .leave .overflowed → Fate s t i k e p'

/-- A thread keeps the index it has until it is answered with it, unless it is broken off. -/
theorem Setup.Sound.owns_act {S : Setup α} {Fits : G.Word → List G.Place → Prop}
    {Toward : Mode → G.Place → Prop} {p : Pool (Shared G α) (Client G α)}
    (h : S.Sound Fits Toward p) {t i : Nat} {c : Client G α} (ht : p.threads[t]? = some c)
    (howns : c.task.owns? = some i) (turn : Turn (Call α)) :
    Fate p.shared t i c.task ((machine G α).event? p turn) ((machine G α).act p turn) := by
  have hbusy : (machine G α).rests c = false := Task.rests_of_owns? howns
  have hmoves := Machine.moves_act (machine G α) p turn
  generalize (machine G α).event? p turn = e, (machine G α).act p turn = p' at hmoves
  cases hmoves with
  | idle => exact .keeps ht howns
  | @call u call d hu hrest =>
    have hut : t ≠ u := by
      rintro rfl
      rw [Option.some.inj (ht.symm.trans hu), hrest] at hbusy
      cases hbusy
    exact .keeps ((Pool.getElem?_put_iff hu).mpr (.inr ⟨hut, ht⟩)) howns
  | @step u luck d hu hunder =>
    by_cases hut : t = u
    · subst hut
      obtain rfl : c = d := Option.some.inj (ht.symm.trans hu)
      have hcounting := h.counting ht luck
      have hput : (p.put t (Gated.step luck p.shared c).1
          (Gated.step luck p.shared c).2).threads[t]? = some (Gated.step luck p.shared c).2 :=
        (Pool.getElem?_put_iff ht).mpr (.inl ⟨rfl, rfl⟩)
      change Fate p.shared t i c.task
        (if (Gated.step luck p.shared c).2.task.rests then
          (Gated.step luck p.shared c).2.task.reply?.map (Machine.Event.answered t) else none)
        (p.put t (Gated.step luck p.shared c).1 (Gated.step luck p.shared c).2)
      generalize Gated.step luck p.shared c = r at *
      rcases r with ⟨⟨gate, stores, reserved, committed, maxCapacity, limits, tries, journal⟩,
        ⟨place, task⟩⟩
      cases hcounting with
      | same hsame => exact .keeps hput (hsame.trans howns)
      | take htask =>
        rw [htask] at howns
        cases howns
      | give htask =>
        rw [htask] at howns
        cases howns
        exact .commits rfl rfl
      | lose htask hlost =>
        rw [htask] at howns
        cases howns
        exact .breaksOff htask hlost hput rfl
    · exact .keeps ((Pool.getElem?_put_iff hu).mpr (.inr ⟨hut, ht⟩)) howns

namespace Setup

variable (S : Setup α) {k : GateKind} {turns : List (Turn (Call α))} {t : Nat}
  {c : Client k.gate α}

theorem counts_after (k : GateKind) (turns : List (Turn (Call α))) :
    Orderly k.Counts k.Toward (S.after k.gate turns) :=
  S.orderly_after k.counts turns

/-- Every index that is reserved and not committed is in the hands of a thread, or lost. -/
theorem owned_after (k : GateKind) (turns : List (Turn (Call α))) {i : Nat}
    (hi : (S.after k.gate turns).shared.committed ≤ i)
    (hi' : i < (S.after k.gate turns).shared.reserved) :
    (∃ (t : Nat) (c : Client k.gate α),
      (S.after k.gate turns).threads[t]? = some c ∧ c.task.owns? = some i) ∨
    (S.after k.gate turns).shared.Lost i := by
  rcases Nat.lt_or_ge S.config.maxCapacity S.len with hlt | hle
  · have hoverfull := S.overfull_after hlt k turns
    have hreserved := hoverfull.reserved
    have hcommitted := hoverfull.committed
    omega
  · exact (S.counted_after hle k turns).owned hi hi'

/-- A slot that the machine has no room for is not there later either, and its index is not
committed. -/
theorem lost_concat {i : Nat} (hlost : (S.after k.gate turns).shared.Lost i)
    (turn : Turn (Call α)) : (S.after k.gate (turns ++ [turn])).shared.Lost i ∧
      ((S.after k.gate turns).shared.committed ≤ i →
        (S.after k.gate (turns ++ [turn])).shared.committed ≤ i) := by
  have hsound := S.sound_after k turns
  refine ⟨?_, fun hle => ?_⟩
  · rw [after_concat]
    refine Machine.act_keeps (P := fun p : Pool (Shared k.gate α) (Client k.gate α) =>
      p.shared.Lost i) hlost ?_ ?_ turn
    · exact fun _ _ _ => hlost
    · intro t c luck ht _
      have hlive := hsound.informed.live
      obtain ⟨hstoring, hmax, -⟩ := storing luck _ c hlive (hsound.informed.knows ht)
      exact hstoring.lost hlive (limits_step luck _ c) hmax hlost
  · rcases hsound.committed_act turn with hsame | ⟨hnext, t, c, ht, htask⟩
    · rw [after_concat, hsame]
      exact hle
    · have hplaced := S.lt_capacity_of_placed ht
        (show c.task.placed? = some (S.after k.gate turns).shared.committed by rw [htask]; rfl)
      have hcapacity := hlost.capacity_le
      rw [after_concat, hnext]
      omega

/-- Each index before that of a thread which waits for its turn is in the hands of a thread. -/
theorem owned_of_await {i j : Nat} (ht : (S.after k.gate turns).threads[t]? = some c)
    (htask : c.task = .await i) (hj : (S.after k.gate turns).shared.committed ≤ j) (hlt : j < i) :
    ∃ (u : Nat) (d : Client k.gate α),
      (S.after k.gate turns).threads[u]? = some d ∧ d.task.owns? = some j := by
  have howns := (S.paced_after k turns).owns ht (show c.task.owns? = some i by rw [htask]; rfl)
  have hplaced := S.lt_capacity_of_placed ht (show c.task.placed? = some i by rw [htask]; rfl)
  refine (S.owned_after k turns hj (by omega)).resolve_right fun hlost => ?_
  have hcapacity := hlost.capacity_le
  omega

/-- A thread that is not inside stands outside the gate or on its way. -/
theorem toward_of_not_inside (ht : (S.after k.gate turns).threads[t]? = some c)
    (hout : c.task.stance.isInside = false) : ∃ m, k.Toward m c.place := by
  have hstands := (S.counts_after k turns).stands ht
  cases hstance : c.task.stance with
  | outside =>
    rw [hstance] at hstands
    exact ⟨.shared, k.counts.outside .shared hstands⟩
  | toward m =>
    rw [hstance] at hstands
    exact ⟨m, hstands⟩
  | holding | inside =>
    rw [hstance] at hout
    cases hout

/-- With nobody inside, the gate lets in one of the threads on their way. -/
theorem enters_after (hnobody : ∀ {u : Nat} {d : Client k.gate α},
      (S.after k.gate turns).threads[u]? = some d → d.task.stance.isInside = false)
    {m : Mode} (ht : (S.after k.gate turns).threads[t]? = some c)
    (hstance : c.task.stance = .toward m) :
    ∃ (u : Nat) (d : Client k.gate α) (m : Mode), (S.after k.gate turns).threads[u]? = some d ∧
      d.task.stance = .toward m ∧
      k.gate.Enters m ((S.after k.gate turns).shared.gate, d.place) := by
  have horderly := S.counts_after k turns
  have hthread : ∀ p ∈ places (S.after k.gate turns), ∃ (u : Nat) (d : Client k.gate α),
      (S.after k.gate turns).threads[u]? = some d ∧ d.place = p := by
    intro p hp
    obtain ⟨d, hd, hplace⟩ := List.mem_map.mp hp
    obtain ⟨u, hu⟩ := Pool.exists_getElem?_of_mem hd
    exact ⟨u, d, hu, hplace⟩
  by_cases hway : ∃ p ∈ places (S.after k.gate turns), k.gate.outside p = false
  · have htoward : ∀ p ∈ places (S.after k.gate turns), ∃ m, k.Toward m p := by
      intro p hp
      obtain ⟨u, d, hu, rfl⟩ := hthread p hp
      exact S.toward_of_not_inside hu (hnobody hu)
    obtain ⟨p, hp, hout, henters⟩ := k.admits.way horderly.fits htoward hway
    obtain ⟨u, d, hu, rfl⟩ := hthread p hp
    have hstands := horderly.stands hu
    have hnot := hnobody hu
    cases hd : d.task.stance with
    | outside =>
      rw [hd] at hstands
      rw [show k.gate.outside d.place = true from hstands] at hout
      cases hout
    | toward m' =>
      rw [hd] at hstands
      exact ⟨u, d, m', hu, hd, henters m' hstands⟩
    | holding | inside =>
      rw [hd] at hnot
      cases hnot
  · have hall : ∀ p ∈ places (S.after k.gate turns), k.gate.outside p = true := by
      simpa using hway
    have hp : c.place ∈ places (S.after k.gate turns) := List.mem_of_getElem? (places_get? ht)
    exact ⟨t, c, m, ht, hstance, k.admits.out horderly.fits hall c.place hp m⟩

/-- While a call is under way, some thread gets on with its call by itself. -/
theorem getsOn_after (ht : (S.after k.gate turns).threads[t]? = some c)
    (hbusy : c.task.rests = false) : GetsOn (S.after k.gate turns) := by
  have hinformed := S.informed_after k turns
  have hgoes : ∀ {u : Nat} {d : Client k.gate α}, (S.after k.gate turns).threads[u]? = some d →
      d.task.GoesOn (S.after k.gate turns).shared → GetsOn (S.after k.gate turns) := by
    intro u d hu hon
    obtain ⟨n, b, hgoes, hlower⟩ := goes_of_goesOn u hinformed.live (hinformed.knows hu) hon
    exact ⟨u, n, d, b, hu, hgoes, hlower⟩
  by_cases hinside : ∃ (u : Nat) (d : Client k.gate α),
      (S.after k.gate turns).threads[u]? = some d ∧ d.task.stance.isInside = true
  · obtain ⟨u, d, hu, hd⟩ := hinside
    refine hgoes hu ⟨rests_of_inside hd, ?_, ?_⟩
    · intro m hm
      rw [hm] at hd
      cases hd
    · intro i hi
      rw [hi] at hd
      cases hd
  · have hnobody : ∀ {u : Nat} {d : Client k.gate α},
        (S.after k.gate turns).threads[u]? = some d → d.task.stance.isInside = false := by
      intro u d hu
      rw [Bool.eq_false_iff]
      intro hd
      exact hinside ⟨u, d, hu, hd⟩
    by_cases hway : ∃ (u : Nat) (d : Client k.gate α) (m : Mode),
        (S.after k.gate turns).threads[u]? = some d ∧ d.task.stance = .toward m
    · obtain ⟨u, d, m, hu, hd⟩ := hway
      obtain ⟨v, e, m', hv, he, henters⟩ := S.enters_after hnobody hu hd
      obtain ⟨n, b, hgoes, hlower⟩ := goes_of_enters v he henters
      exact ⟨v, n, e, b, hv, hgoes, hlower⟩
    · have hstands : ∀ {u : Nat} {d : Client k.gate α},
          (S.after k.gate turns).threads[u]? = some d → ∀ m, d.task.stance ≠ .toward m :=
        fun hu m hm => hway ⟨_, _, m, hu, hm⟩
      by_cases hawait : ∃ i, c.task = .await i
      · -- the thread that has the next index waits for nothing
        obtain ⟨i, hi⟩ := hawait
        have howns := (S.paced_after k turns).owns ht (show c.task.owns? = some i by rw [hi]; rfl)
        obtain ⟨u, d, hu, hnext⟩ : ∃ (u : Nat) (d : Client k.gate α),
            (S.after k.gate turns).threads[u]? = some d ∧
              d.task.owns? = some (S.after k.gate turns).shared.committed := by
          rcases Nat.eq_or_lt_of_le howns.1 with heq | hlt
          · exact ⟨t, c, ht, by rw [hi, heq]; rfl⟩
          · exact S.owned_of_await ht hi (Nat.le_refl _) hlt
        refine hgoes hu ⟨Task.rests_of_owns? hnext, hstands hu, ?_⟩
        intro j hj
        rw [hj] at hnext
        exact (Option.some.inj hnext).symm
      · exact hgoes ht ⟨hbusy, hstands ht, fun i hi => absurd ⟨i, hi⟩ hawait⟩

/-- From every state steps alone bring every call to its end. -/
theorem rests_after (k : GateKind) (turns : List (Turn (Call α))) :
    ∃ more : List (Turn (Call α)), (∀ turn ∈ more, turn.isStep = true) ∧
      ∀ {t : Nat} {c : Client k.gate α},
        (S.after k.gate (turns ++ more)).threads[t]? = some c → c.task.rests = true := by
  have hfalls := Machine.rests_of_falls (m := machine k.gate α)
    (fun p => ∃ turns, p = S.after k.gate turns) (fun c => c.task.phase) ?_ ?_ ⟨turns, rfl⟩
  · obtain ⟨more, hsteps, hrest⟩ := hfalls
    refine ⟨more, hsteps, ?_⟩
    intro t c ht
    rw [after, Machine.run_append] at ht
    exact hrest ht
  · rintro p turn ⟨turns, rfl⟩
    exact ⟨turns ++ [turn], (S.after_concat k.gate turns turn).symm⟩
  · rintro p i ⟨turns, rfl⟩ ⟨c, hc, hbusy⟩
    exact S.getsOn_after hc hbusy

/-- While calls are under way, not every thread only waits. -/
theorem not_waits_after (hbusy : (machine k.gate α).Busy (S.after k.gate turns) t) :
    ∃ u, (machine k.gate α).Busy (S.after k.gate turns) u ∧
      ¬ (machine k.gate α).Waits (S.after k.gate turns) u := by
  obtain ⟨more, hsteps, hrest⟩ := S.rests_after k turns
  refine Machine.exists_not_waits hbusy hsteps ?_
  intro u d hu
  rw [after, ← Machine.run_append] at hu
  exact hrest hu

/-! ## What is promised -/

/-- What is promised of the calls under way after some turns. -/
structure Proceeds (k : GateKind) (turns : List (Turn (Call α))) : Prop where
  /-- Steps alone can bring every call to its end, -/
  ends : ∃ more : List (Turn (Call α)), (∀ turn ∈ more, turn.isStep = true) ∧
    ∀ {t : Nat} {c : Client k.gate α},
      (S.after k.gate (turns ++ more)).threads[t]? = some c → c.task.rests = true
  /-- so while calls are under way one thread at least does more than wait. -/
  moves : ∀ {t : Nat}, (machine k.gate α).Busy (S.after k.gate turns) t →
    ∃ u, (machine k.gate α).Busy (S.after k.gate turns) u ∧
      ¬ (machine k.gate α).Waits (S.after k.gate turns) u
  /-- A thread that waits for its turn to commit, or commits, neither holds the gate nor is on its
  way in. -/
  outside : ∀ {t i : Nat} {c : Client k.gate α}, (S.after k.gate turns).threads[t]? = some c →
    c.task = .await i ∨ c.task = .commit i → k.gate.outside c.place = true
  /-- Room for an index that was reserved can be made. -/
  grows : ∀ {t i : Nat} {v : α} {c : Client k.gate α},
    (S.after k.gate turns).threads[t]? = some c → c.task = .growPointer (.fit i v) →
    ∃ n, capacityFor (S.after k.gate turns).shared.stores.capacity (i + 1)
      (S.after k.gate turns).shared.maxCapacity = .ok n
  /-- An index that was reserved and is not committed is in the hands of a thread, unless the
  machine has no room for its slot. -/
  owned : ∀ {i : Nat}, (S.after k.gate turns).shared.committed ≤ i →
    i < (S.after k.gate turns).shared.reserved →
    (∃ (t : Nat) (c : Client k.gate α),
      (S.after k.gate turns).threads[t]? = some c ∧ c.task.owns? = some i) ∨
    (S.after k.gate turns).shared.Lost i
  /-- The thread keeps it until it has committed it and is answered with it, unless it is broken off
  because there is no room. -/
  keeps : ∀ {t i : Nat} {c : Client k.gate α} (turn : Turn (Call α)),
    (S.after k.gate turns).threads[t]? = some c → c.task.owns? = some i →
    Fate (S.after k.gate turns).shared t i c.task
      ((machine k.gate α).event? (S.after k.gate turns) turn) (S.after k.gate (turns ++ [turn]))
  /-- Nobody waits behind an index that was given up: each one before that of a thread which waits
  for its turn is in the hands of a thread. -/
  behind : ∀ {t i j : Nat} {c : Client k.gate α}, (S.after k.gate turns).threads[t]? = some c →
    c.task = .await i → (S.after k.gate turns).shared.committed ≤ j → j < i →
    ∃ (u : Nat) (d : Client k.gate α),
      (S.after k.gate turns).threads[u]? = some d ∧ d.task.owns? = some j
  /-- Where there is no room for a slot there is none later, and its index is never committed. -/
  stays : ∀ {i : Nat} (turn : Turn (Call α)), (S.after k.gate turns).shared.Lost i →
    (S.after k.gate (turns ++ [turn])).shared.Lost i ∧
    ((S.after k.gate turns).shared.committed ≤ i →
      (S.after k.gate (turns ++ [turn])).shared.committed ≤ i)
  /-- A machine that can make a store of all slots that are allowed has room for every slot. -/
  spares : S.limits.holds S.config.maxCapacity = true →
    ∀ i, ¬ (S.after k.gate turns).shared.Lost i

/-- Whatever the threads of an array have done, no call is stuck, and no index that was reserved is
given up but for want of room. -/
theorem proceeds_after (k : GateKind) (turns : List (Turn (Call α))) : S.Proceeds k turns := by
  have hsound := S.sound_after k turns
  refine ⟨S.rests_after k turns, S.not_waits_after, ?_, ?_, S.owned_after k turns, ?_,
    S.owned_of_await, fun turn hlost => S.lost_concat hlost turn, ?_⟩
  · intro t i c ht htask
    have hstands := hsound.orderly.stands ht
    rcases htask with htask | htask
    · rw [htask] at hstands
      exact hstands
    · rw [htask] at hstands
      exact hstands
  · intro t i v c ht htask
    have hallowed := (hsound.paced.owns ht (show c.task.owns? = some i by rw [htask]; rfl)).2.2
    cases hroom : capacityFor (S.after k.gate turns).shared.stores.capacity (i + 1)
        (S.after k.gate turns).shared.maxCapacity with
    | ok n => exact ⟨n, rfl⟩
    | error e =>
      have := lt_of_capacityFor hroom
      omega
  · intro t i c turn ht howns
    rw [after_concat]
    exact hsound.owns_act ht howns turn
  · intro hholds
    rw [← S.limits_after k.gate turns, ← S.max_eq_after k turns] at hholds
    exact Shared.not_lost hholds

/-- An empty store, more elements than it could ever hold, and one thread, on a machine with room
for as many bytes as the positive half of the sizes counts. -/
def bottomless : Setup UInt8 where
  store := ⟨#[]⟩
  len := 2 ^ 63
  config := { maxCapacity := 2 ^ 63 + 1 }
  threads := 1
  limits := .ofSlotBytes 1 .wraps

/-- The thread appends, and is broken off. -/
def appendOnce : List (Turn (Call UInt8)) :=
  .call 0 (.append 1) :: List.replicate 24 (.step 0 true)

/-- With every call over, an index was reserved that nobody commits. -/
theorem abandoned_appendOnce :
    bottomless.history GateKind.stamped.gate appendOnce =
      [.called 0 (.append 1), .answered 0 .overflowed] ∧
    (bottomless.after GateKind.stamped.gate appendOnce).threads.all (·.task.rests) = true ∧
    (bottomless.after GateKind.stamped.gate appendOnce).shared.reserved = 2 ^ 63 + 1 ∧
    (bottomless.after GateKind.stamped.gate appendOnce).shared.committed = 2 ^ 63 := by
  decide +kernel

end Setup

end Gated

end Growable.SharedArray
