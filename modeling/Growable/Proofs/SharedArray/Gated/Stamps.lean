import Growable.Proofs.Lock.Versions
import Growable.Proofs.SharedArray.Gated.Published

/-!
# Reads with a stamp

Under the stamped lock a read is first tried without the lock. The number in the lock's word tells
how often exclusive mode was entered, up to 2⁴⁷ times, and only in exclusive mode another store is
made current. So if the stamp is still valid after the slot was loaded, and fewer threads than that
have entered exclusive mode meanwhile, none has, and the slot was one of the current store.
-/

namespace Growable.SharedArray.Gated

open Lock (Gate Mode Stamped)

section

variable {α : Type}

/-- The stamp of the try that a read is at. -/
def Task.stamp? {G : Gate} : Task G α → Option G.Stamp
  | .tryLength _ _ stamp | .tryPointer _ _ stamp _ | .trySlot _ _ stamp _ _
  | .tryValid _ _ stamp _ _ => some stamp
  | _ => none

theorem Task.finds_of_stamp? {G : Gate} {k : Task G α} {stamp : G.Stamp}
    (h : k.stamp? = some stamp) : k.finds = true ∧ k.rests = false := by
  cases k with
  | tryLength | tryPointer | trySlot | tryValid => exact ⟨rfl, rfl⟩
  | _ => cases h

variable [Inhabited α]

/-- A thread that is outside and does not ask for the gate leaves it as it is. -/
theorem gate_of_outside {G : Gate} {luck : Bool} {s : Shared G α} {c : Client G α}
    (h : c.task.stance = .outside) : (step luck s c).1.gate = s.gate := by
  rcases (gating luck s c).moves with ⟨hword, -⟩ | ⟨m, htoward, -⟩ | ⟨hinside, -⟩
  · exact hword
  · rw [h] at htoward
    cases htoward
  · rw [h] at hinside
    cases hinside

/-- A thread is in exclusive mode. -/
def exclusive (p : Pool (Shared GateKind.stamped.gate α) (Client GateKind.stamped.gate α)) : Bool :=
  Stamped.isExclusive p.shared.gate

/-- A thread enters exclusive mode. -/
def acquired? (p : Pool (Shared GateKind.stamped.gate α) (Client GateKind.stamped.gate α))
    (turn : Turn (Call α)) : Option Unit :=
  if exclusive p = false ∧ exclusive ((machine GateKind.stamped.gate α).act p turn) = true then
    some ()
  else none

end

namespace Setup

variable {α : Type} [Inhabited α] (S : Setup α) {turns : List (Turn (Call α))}
  {turn : Turn (Call α)} {t : Nat} {c : Client GateKind.stamped.gate α}

/-- How often exclusive mode was entered in some turns. -/
def acquisitions (turns : List (Turn (Call α))) : Nat :=
  ((machine GateKind.stamped.gate α).observe acquired?
    (idle GateKind.stamped.gate S.store S.len S.config S.threads S.limits) turns).length

theorem acquisitions_concat (turns : List (Turn (Call α))) (turn : Turn (Call α)) :
    S.acquisitions (turns ++ [turn]) = S.acquisitions turns +
      if exclusive (S.after GateKind.stamped.gate turns) = false ∧
        exclusive (S.after GateKind.stamped.gate (turns ++ [turn])) = true then 1 else 0 := by
  rw [acquisitions, Machine.observe_concat, List.length_append, after_concat]
  show S.acquisitions turns + (acquired? (S.after GateKind.stamped.gate turns) turn).toList.length = _
  unfold acquired?
  split
  · rfl
  · rfl

/-! ## The number in the word -/

theorem numbering_after (turns : List (Turn (Call α))) (turn : Turn (Call α)) :
    Stamped.Numbering (S.after GateKind.stamped.gate turns).shared.gate
      (S.after GateKind.stamped.gate (turns ++ [turn])).shared.gate := by
  rw [after_concat]
  have horderly := (S.sound_after .stamped turns).orderly
  generalize S.after GateKind.stamped.gate turns = p at horderly
  have hfits : Stamped.Fits p.shared.gate (places p) := horderly.fits
  have hacts := Machine.acts (machine GateKind.stamped.gate α) p turn
  generalize (machine GateKind.stamped.gate α).act p turn = p' at hacts
  cases hacts with
  | idle => exact .same rfl
  | call => exact .same rfl
  | @step t luck c ht =>
    change Stamped.Numbering _ (Gated.step luck p.shared c).1.gate
    rcases (gating luck p.shared c).moves with ⟨hword, -⟩ | ⟨m, -, hword, -⟩ | ⟨-, hword, -⟩
    · exact .same (congrArg Stamped.number hword)
    · rw [hword]
      exact hfits.numbering_seek (places_get? ht) m luck
    · rw [hword]
      exact hfits.numbering_leave (places_get? ht)

/-- The number tells how often exclusive mode was entered, and whether a thread is in it. -/
theorem number_after (turns : List (Turn (Call α))) :
    Stamped.number (S.after GateKind.stamped.gate turns).shared.gate =
      (2 + 2 * S.acquisitions turns -
        if exclusive (S.after GateKind.stamped.gate turns) then 1 else 0) % 2 ^ 48 := by
  induction turns using List.reverseRecOn with
  | nil =>
    have hfree : exclusive (S.after GateKind.stamped.gate []) = false := Stamped.isExclusive_free
    rw [hfree]
    exact Stamped.number_free
  | append_singleton turns turn ih =>
    rw [acquisitions_concat]
    have hnumbering := S.numbering_after turns turn
    have hlt := Stamped.number_lt (S.after GateKind.stamped.gate (turns ++ [turn])).shared.gate
    cases hnumbering with
    | same hsame =>
      have hexclusive : exclusive (S.after GateKind.stamped.gate (turns ++ [turn])) =
          exclusive (S.after GateKind.stamped.gate turns) := Stamped.isExclusive_congr hsame
      rw [hsame, ih, hexclusive]
      cases exclusive (S.after GateKind.stamped.gate turns) <;> simp
    | take hbefore hafter hnext =>
      have hbefore : exclusive (S.after GateKind.stamped.gate turns) = false := hbefore
      have hafter : exclusive (S.after GateKind.stamped.gate (turns ++ [turn])) = true := hafter
      rw [hbefore] at ih
      simp only [hbefore, hafter, Bool.false_eq_true, and_self, if_true, if_false] at ih ⊢
      omega
    | give hbefore hafter hnext =>
      have hbefore : exclusive (S.after GateKind.stamped.gate turns) = true := hbefore
      have hafter : exclusive (S.after GateKind.stamped.gate (turns ++ [turn])) = false := hafter
      rw [hbefore] at ih
      simp only [hbefore, hafter, Bool.false_eq_true, and_false, if_true, if_false] at ih ⊢
      omega

/-- If nobody was in exclusive mode and nobody has entered it, nobody is. -/
theorem exclusive_concat (h : exclusive (S.after GateKind.stamped.gate turns) = false)
    (hsame : S.acquisitions (turns ++ [turn]) = S.acquisitions turns) :
    exclusive (S.after GateKind.stamped.gate (turns ++ [turn])) = false := by
  cases hafter : exclusive (S.after GateKind.stamped.gate (turns ++ [turn])) with
  | false => rfl
  | true =>
    rw [acquisitions_concat, if_pos ⟨h, hafter⟩] at hsame
    omega

/-- Another store is made current in exclusive mode only. -/
theorem current_concat (h : exclusive (S.after GateKind.stamped.gate turns) = false) :
    (S.after GateKind.stamped.gate (turns ++ [turn])).shared.stores.current =
      (S.after GateKind.stamped.gate turns).shared.stores.current := by
  have hfiling := S.filing_after .stamped turns turn
  generalize (S.after GateKind.stamped.gate (turns ++ [turn])).shared.stores = s' at hfiling
  cases hfiling with
  | same => rfl
  | deposit _ hname =>
    rw [hname, Stores.current_set]
  | grow _ hu hexclusive =>
    have horderly := (S.sound_after .stamped turns).orderly
    have hfits : Stamped.Fits (S.after GateKind.stamped.gate turns).shared.gate
        (places (S.after GateKind.stamped.gate turns)) := horderly.fits
    have hstands := horderly.stands hu
    rw [hexclusive] at hstands
    rw [exclusive, hfits.isExclusive (places_get? hu) hstands] at h
    cases h

/-! ## One try -/

theorem acquisitions_le_concat (turns : List (Turn (Call α))) (turn : Turn (Call α)) :
    S.acquisitions turns ≤ S.acquisitions (turns ++ [turn]) := by
  rw [acquisitions_concat]
  exact Nat.le_add_right _ _

/-- Thread `t` is at a try. -/
def Trying (t : Nat) (past : List (Turn (Call α))) : Prop :=
  ∃ c, (S.after GateKind.stamped.gate past).threads[t]? = some c ∧ c.task.stamp? ≠ none

/-- What a try has found is of the current store, so far. -/
def Fresh (turns : List (Turn (Call α))) (t : Nat) : Task GateKind.stamped.gate α → Prop
  | .trySlot _ _ _ _ p => p = (S.after GateKind.stamped.gate turns).shared.stores.current
  | .tryValid i _ _ len v? =>
    (∀ v, v? = some v → i < len →
      S.During GateKind.stamped.gate t (S.Element GateKind.stamped.gate i v) turns) ∧
    (v? = none → len ≤ i)
  | _ => True

/-- A try whose stamp was taken when exclusive mode had been entered `taken` times. -/
structure Trial (turns : List (Turn (Call α))) (t : Nat) (task : Task GateKind.stamped.gate α)
    (stamp : Stamped.Stamp) (taken : Nat) : Prop where
  le : taken ≤ S.acquisitions turns
  bits : stamp.bits.toNat = 65536 * ((2 + 2 * taken) % 2 ^ 48)
  since : Since (S.Trying t) (fun past => S.acquisitions past = taken) turns
  /-- Unless exclusive mode was entered meanwhile, what was found is of the current store. -/
  fresh : S.acquisitions turns = taken →
    exclusive (S.after GateKind.stamped.gate turns) = false ∧ S.Fresh turns t task

variable {S} {stamp : Stamped.Stamp} {taken : Nat}

theorem Trial.concat {task task' : Task GateKind.stamped.gate α}
    (h : S.Trial turns t task stamp taken) (htrying : S.Trying t (turns ++ [turn]))
    (hfresh : exclusive (S.after GateKind.stamped.gate turns) = false → S.Fresh turns t task →
      S.Fresh (turns ++ [turn]) t task') : S.Trial (turns ++ [turn]) t task' stamp taken := by
  have hle := S.acquisitions_le_concat turns turn
  refine ⟨Nat.le_trans h.le hle, h.bits, .later h.since htrying, ?_⟩
  intro hsame
  have hbefore : S.acquisitions turns = taken := Nat.le_antisymm (hsame ▸ hle) h.le
  obtain ⟨hnobody, hfound⟩ := h.fresh hbefore
  exact ⟨S.exclusive_concat hnobody (hsame.trans hbefore.symm), hfresh hnobody hfound⟩

theorem Fresh.pass {d : Client GateKind.stamped.gate α}
    (ht : (S.after GateKind.stamped.gate (turns ++ [turn])).threads[t]? = some d)
    (hbusy : d.task.rests = false)
    (hnobody : exclusive (S.after GateKind.stamped.gate turns) = false)
    {task : Task GateKind.stamped.gate α} (h : S.Fresh turns t task) :
    S.Fresh (turns ++ [turn]) t task := by
  cases task with
  | trySlot i left stamp len p => exact Eq.trans h (S.current_concat hnobody).symm
  | tryValid i left stamp len v? =>
    exact ⟨fun v hv hi => .later (h.1 v hv hi) (busy_after ht hbusy), h.2⟩
  | _ => exact trivial

/-- A try starts when its stamp is taken. -/
theorem trial_of_stamp? {luck : Bool} {task : Task GateKind.stamped.gate α}
    (ht : (S.after GateKind.stamped.gate turns).threads[t]? = some c) (hbusy : c.task.rests = false)
    (hout : c.task.stance = .outside)
    (hstamp : Stamped.stamp? (S.after GateKind.stamped.gate turns).shared.gate = some stamp)
    (htrying : S.Trying t (turns ++ [.step t luck]))
    (hfresh : S.Fresh (turns ++ [.step t luck]) t task) :
    S.Trial (turns ++ [.step t luck]) t task stamp (S.acquisitions turns) := by
  obtain ⟨hnobody, hbits⟩ := Stamped.bits_of_stamp? hstamp
  have hnobody : exclusive (S.after GateKind.stamped.gate turns) = false := hnobody
  have hgate : (S.after GateKind.stamped.gate (turns ++ [.step t luck])).shared.gate =
      (S.after GateKind.stamped.gate turns).shared.gate := by
    rw [after_concat, Machine.act_step ht hbusy]
    exact gate_of_outside hout
  have hnobody' : exclusive (S.after GateKind.stamped.gate (turns ++ [.step t luck])) = false := by
    rw [exclusive, hgate]
    exact hnobody
  have hsame : S.acquisitions (turns ++ [.step t luck]) = S.acquisitions turns := by
    rw [acquisitions_concat, if_neg (by simp [hnobody'])]
    rfl
  refine ⟨Nat.le_of_eq hsame.symm, ?_, .now htrying hsame, fun _ => ⟨hnobody', hfresh⟩⟩
  rw [hbits, number_after, hnobody]
  rfl

theorem trial_after (hlen : S.len ≤ S.store.capacity)
    (ht : (S.after GateKind.stamped.gate turns).threads[t]? = some c)
    (hstamp : c.task.stamp? = some stamp) : ∃ taken, S.Trial turns t c.task stamp taken := by
  refine Machine.busy_invariant (m := machine GateKind.stamped.gate α)
    (fun turns t c => ∀ stamp : Stamped.Stamp, c.task.stamp? = some stamp →
      ∃ taken, S.Trial turns t c.task stamp taken)
    rests_idle ?_ ?_ ?_ ht (Task.finds_of_stamp? hstamp).2 stamp hstamp
  · intro turns t c call _ _ stamp hstamp
    have hfinds : (Task.ofCall (G := GateKind.stamped.gate) call).finds = true :=
      (Task.finds_of_stamp? hstamp).1
    rw [finds_ofCall] at hfinds
    cases hfinds
  · intro turns t c luck ht hbusy htrial hbusy' stamp hstamp
    have ht' : (S.after GateKind.stamped.gate (turns ++ [.step t luck])).threads[t]? = some _ :=
      get?_put_after ht (Machine.act_step ht hbusy)
    have hunder := busy_after ht hbusy
    have hunder' := busy_after ht' hbusy'
    have htrying : S.Trying t (turns ++ [.step t luck]) :=
      ⟨_, ht', fun hnone => Option.some_ne_none stamp (hstamp.symm.trans hnone)⟩
    have hfound := S.found_after (k := .stamped) ht hbusy
    have hfinding := finding luck (S.after GateKind.stamped.gate turns).shared c hbusy
    change (Gated.step luck (S.after GateKind.stamped.gate turns).shared c).2.task.stamp? = _ at hstamp
    change ∃ taken, S.Trial _ t (Gated.step luck (S.after GateKind.stamped.gate turns).shared c).2.task
      stamp taken
    generalize (Gated.step luck (S.after GateKind.stamped.gate turns).shared c).2.task = next
      at hfinding hstamp
    rcases c with ⟨place, task⟩
    cases hfinding with
    | nothing hfinds =>
      rw [(Task.finds_of_stamp? hstamp).1] at hfinds
      cases hfinds
    | stamp htaken =>
      obtain rfl := Option.some.inj hstamp
      exact ⟨_, trial_of_stamp? ht hbusy rfl htaken htrying trivial⟩
    | tryLength =>
      obtain ⟨taken, h⟩ := htrial stamp hstamp
      exact ⟨taken, h.concat htrying fun _ _ => trivial⟩
    | tryName =>
      obtain ⟨taken, h⟩ := htrial stamp hstamp
      exact ⟨taken, h.concat htrying fun hnobody _ => (S.current_concat hnobody).symm⟩
    | @trySlot i left len p =>
      obtain ⟨taken, h⟩ := htrial stamp hstamp
      refine ⟨taken, h.concat htrying fun _ hcurrent => ?_⟩
      obtain rfl : p = _ := hcurrent
      refine ⟨fun v hv hi => ?_, fun hnone => ?_⟩
      · exact .later (.now hunder ⟨Nat.lt_of_lt_of_le hi hfound.1, hv⟩) hunder'
      · -- the store has a slot for every index below a length that was seen before
        refine Nat.le_of_not_lt fun hi => ?_
        obtain ⟨v, -, hv⟩ := element_of_lt (k := .stamped) hlen (Nat.lt_of_lt_of_le hi hfound.1)
        rw [show Stores.slot? _ i = none from hnone] at hv
        cases hv
    | _ => cases hstamp
  · intro turns t c turn _ ht ht' hbusy htrial stamp hstamp
    obtain ⟨taken, h⟩ := htrial stamp hstamp
    have htrying : S.Trying t (turns ++ [turn]) :=
      ⟨c, ht', fun hnone => Option.some_ne_none stamp (hstamp.symm.trans hnone)⟩
    exact ⟨taken, h.concat htrying fun hnobody hfresh => hfresh.pass ht' hbusy hnobody⟩

end Setup

end Growable.SharedArray.Gated
