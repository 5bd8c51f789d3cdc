import Growable.Proofs.SharedArray.Gated.Prefix

/-!
# Writes survive growth

A value that an append or a write puts into a slot goes to the store that is current then, and a
growth carries it over; so a read in shared mode finds the latest value that was put into its slot,
however often the store was replaced in between.
-/

namespace Growable.SharedArray

open Lock (Gate Mode)

/-- A thread that holds a gate is not outside. -/
theorem GateKind.outside_of_holds {k : GateKind} {m : Mode} {p : k.gate.Place}
    (h : k.gate.holds m p = true) : k.gate.outside p = false := by
  cases k with
  | stamped | layout =>
    cases m <;> cases p <;> first | rfl | cases h
  | flagged =>
    cases m <;> cases p <;> first | rfl | cases h

namespace Gated

variable {α : Type} [Inhabited α]

/-- What becomes of the values that were put into slots and of those that the next turns put
there. -/
structure Survives (S : Setup α) (k : GateKind) (turns : List (Turn (Call α))) : Prop where
  /-- A value is put into the store that is current at that moment, for the call that its thread is
  at, and is there afterwards. -/
  lands : ∀ {turn : Turn (Call α)} {d : Deposit α},
    deposited? (S.after k.gate turns) turn = some d →
    d.name = (S.after k.gate turns).shared.stores.current ∧
      d.slot < (S.after k.gate turns).shared.stores.capacity ∧
      Machine.lastCall? (S.history k.gate turns) d.thread = some d.call ∧
      (S.after k.gate (turns ++ [turn])).shared.stores =
        (S.after k.gate turns).shared.stores.set d.name d.slot d.value ∧
      (S.after k.gate (turns ++ [turn])).shared.stores.slot? d.slot = some d.value
  /-- A store that was replaced stays replaced and is never stored to again. -/
  replaced : ∀ (more : List (Turn (Call α))) {n : Nat},
    n < (S.after k.gate turns).shared.stores.current →
    n < (S.after k.gate (turns ++ more)).shared.stores.current ∧
      (S.after k.gate (turns ++ more)).shared.stores.history[n]? =
        (S.after k.gate turns).shared.stores.history[n]?
  /-- A turn that puts nothing into a slot, a growth among them, leaves every slot as it is, -/
  carried : ∀ {turn : Turn (Call α)} {i : Nat}, deposited? (S.after k.gate turns) turn = none →
    i < (S.after k.gate turns).shared.stores.capacity →
    i < (S.after k.gate (turns ++ [turn])).shared.stores.capacity ∧
      (S.after k.gate (turns ++ [turn])).shared.stores.slot? i =
        (S.after k.gate turns).shared.stores.slot? i
  /-- a slot that was added holds the default until an append has written it, -/
  added : ∀ {i : Nat}, S.len ≤ i → S.store.capacity ≤ i →
    i < (S.after k.gate turns).shared.stores.capacity →
    (∀ d ∈ S.deposits k.gate turns, d.appends i = false) →
    (S.after k.gate turns).shared.stores.slot? i = some default
  /-- and every slot holds the latest value that was put into it. -/
  holds : ∀ i < (S.after k.gate turns).shared.stores.capacity,
    (S.after k.gate turns).shared.stores.slot? i =
      some (content S.store (S.deposits k.gate turns) i)
  /-- A write that is done has put its value into its slot, -/
  written : ∀ {turn : Turn (Call α)} {t i : Nat} {v : α},
    (machine k.gate α).event? (S.after k.gate turns) turn = some (.answered t .done) →
    Machine.lastCall? (S.history k.gate turns) t = some (.write i v) →
    ∃ name, S.During k.gate t (S.LastDeposit k.gate ⟨t, false, name, i, v⟩) turns
  /-- and so has an append that is answered with an index. -/
  appended : ∀ {turn : Turn (Call α)} {t i : Nat},
    (machine k.gate α).event? (S.after k.gate turns) turn = some (.answered t (.index i)) →
    ∃ name v, Machine.lastCall? (S.history k.gate turns) t = some (.append v) ∧
      S.During k.gate t (S.LastDeposit k.gate ⟨t, true, name, i, v⟩) turns
  /-- A read that comes out of shared mode with a value found it there in its slot: the latest value
  that was put into the slot, by an append or a write, if it is not one of the first elements. -/
  read : ∀ {turn : Turn (Call α)} {t i : Nat} {v : α},
    (machine k.gate α).event? (S.after k.gate turns) turn = some (.answered t (.value v)) →
    Machine.lastCall? (S.history k.gate turns) t = some (.read i) →
    S.Holding k.gate .shared t turns →
    S.During k.gate t (fun past => S.Holding k.gate .shared t past ∧
      i < (S.after k.gate past).shared.committed ∧
      content S.store (S.deposits k.gate past) i = v ∧
      (S.len ≤ i → latest? (S.deposits k.gate past) i = some v)) turns

namespace Setup

variable (S : Setup α) {k : GateKind} {turns : List (Turn (Call α))} {turn : Turn (Call α)}
  {t i : Nat} {v : α}

theorem lands_after {d : Deposit α} (h : deposited? (S.after k.gate turns) turn = some d) :
    d.name = (S.after k.gate turns).shared.stores.current ∧
      d.slot < (S.after k.gate turns).shared.stores.capacity ∧
      (S.after k.gate (turns ++ [turn])).shared.stores =
        (S.after k.gate turns).shared.stores.set d.name d.slot d.value := by
  have hfiling := S.filing_after k turns turn
  generalize (S.after k.gate (turns ++ [turn])).shared.stores = s' at hfiling
  cases hfiling with
  | same hnone | grow hnone =>
    rw [h] at hnone
    cases hnone
  | deposit hd hname hslot =>
    obtain rfl := Option.some.inj (h.symm.trans hd)
    exact ⟨hname, hslot, rfl⟩

/-- An element that was not there from the first is the latest value put into its slot. -/
theorem latest?_of_element (hi : S.Element k.gate i v turns) (hlen : S.len ≤ i) :
    latest? (S.deposits k.gate turns) i = some v := by
  obtain ⟨d, hd, happends⟩ := S.covers_after k turns i hlen hi.1
  have hslot := (Deposit.appends_iff.mp happends).2
  have hcontent := (S.traced_after k turns).holds i
    (hslot ▸ (S.traced_after k turns).within d hd)
  rw [hi.2, content] at hcontent
  cases hlatest : latest? (S.deposits k.gate turns) i with
  | none => exact absurd hslot (latest?_eq_none_iff.mp hlatest d hd)
  | some u =>
    rw [hlatest] at hcontent
    exact hcontent.symm

theorem content_of_element (hi : S.Element k.gate i v turns) :
    content S.store (S.deposits k.gate turns) i = v := by
  have hlt : i < (S.after k.gate turns).shared.stores.capacity := by
    refine Nat.lt_of_not_le fun hle => ?_
    have hslot := hi.2
    rw [(S.sound_after k turns).informed.live.slot?_eq_none_iff.mpr hle] at hslot
    cases hslot
  have hcontent := (S.traced_after k turns).holds i hlt
  exact Option.some.inj (hcontent.symm.trans hi.2)

theorem written_of_done
    (h : (machine k.gate α).event? (S.after k.gate turns) turn = some (.answered t .done))
    (hcall : Machine.lastCall? (S.history k.gate turns) t = some (.write i v)) :
    ∃ name, S.During k.gate t (S.LastDeposit k.gate ⟨t, false, name, i, v⟩) turns := by
  obtain ⟨luck, c, -, ht, hbusy, hending⟩ := ending_of_answered h
  obtain ⟨call, hlast, hserves⟩ := S.serves_after ht hbusy
  have hfound := S.found_after ht hbusy
  generalize c.task = task at hending hserves hfound
  cases hending with
  | leave => exact hfound i v hcall
  | roomy honly =>
    rw [hlast, honly call hserves] at hcall
    cases hcall
  | valid _ ha => rcases answer_of_afterValid ha with ⟨v, ⟨⟩, -⟩ | ⟨⟨⟩, -⟩

theorem appended_of_index
    (h : (machine k.gate α).event? (S.after k.gate turns) turn = some (.answered t (.index i))) :
    ∃ name v, Machine.lastCall? (S.history k.gate turns) t = some (.append v) ∧
      S.During k.gate t (S.LastDeposit k.gate ⟨t, true, name, i, v⟩) turns := by
  obtain ⟨luck, c, -, ht, hbusy, hending⟩ := ending_of_answered h
  obtain ⟨call, -, hserves⟩ := S.serves_after ht hbusy
  rcases c with ⟨place, task⟩
  cases hending with
  | leave => cases hserves
  | commit => exact S.placed_after ht rfl
  | valid _ ha => rcases answer_of_afterValid ha with ⟨v, ⟨⟩, -⟩ | ⟨⟨⟩, -⟩

theorem element_of_value
    (h : (machine k.gate α).event? (S.after k.gate turns) turn = some (.answered t (.value v)))
    (hcall : Machine.lastCall? (S.history k.gate turns) t = some (.read i))
    (hholds : S.Holding k.gate .shared t turns) :
    S.During k.gate t (fun past => S.Holding k.gate .shared t past ∧ S.Element k.gate i v past)
      turns := by
  obtain ⟨luck, c, -, ht, hbusy, hending⟩ := ending_of_answered h
  have hfound := S.found_after ht hbusy
  have hstands := (S.sound_after k turns).orderly.stands ht
  obtain ⟨c', ht', hholds⟩ := hholds
  obtain rfl := Option.some.inj (ht.symm.trans ht')
  rcases c with ⟨place, task⟩
  cases hending with
  | leave => exact hfound i hcall
  | valid =>
    -- a read that was never let in is outside
    have hout : k.gate.outside place = true := hstands
    rw [GateKind.outside_of_holds hholds] at hout
    cases hout

/-- Nothing that was put into a slot is lost, whichever threads use the array under whichever gate,
and in whichever order they take their steps. -/
theorem writes_survive (S : Setup α) (k : GateKind) (turns : List (Turn (Call α))) :
    Survives S k turns where
  lands h := by
    obtain ⟨hname, hslot, hstores⟩ := S.lands_after h
    refine ⟨hname, hslot, S.call_of_deposited? h, hstores, ?_⟩
    rw [hstores, hname]
    exact (S.sound_after k turns).informed.live.slot?_set_self hslot
  replaced := S.replaced_after k turns
  carried := by
    intro turn i hnone hi
    have hlive := (S.sound_after k turns).informed.live
    have hfiling := S.filing_after k turns turn
    refine ⟨Nat.lt_of_lt_of_le hi (hfiling.capacity_le hlive), ?_⟩
    rw [hfiling.slot?_of_lt hlive hi, hnone]
  added := S.slot?_of_unwritten
  holds := (S.traced_after k turns).holds
  written := S.written_of_done
  appended := S.appended_of_index
  read := by
    intro turn t i v h hcall hholds
    refine (S.element_of_value h hcall hholds).mono ?_
    intro past ⟨hin, helement⟩
    exact ⟨hin, helement.1, S.content_of_element helement, S.latest?_of_element helement⟩

end Setup

end Gated

end Growable.SharedArray
