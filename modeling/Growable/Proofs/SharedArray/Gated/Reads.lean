import Growable.Proofs.Lock.Admission
import Growable.Proofs.SharedArray.Alone.Gated
import Growable.Proofs.SharedArray.Gated.Stamps

/-!
# Reads agree

Under the stamped lock a read is answered by a try without the lock or, after the last try, inside
it. Either way the answer was right at some moment of the call; and while no other thread moves, it
does not matter how many tries there are.
-/

namespace Growable.SharedArray.Gated

open Lock (Gate Mode Stamped)
open Machine (lastCall?)

/-! ## A read while nobody else moves -/

section

variable {G : Gate} {α : Type}

/-- What a read of element `i` comes to at this moment. -/
def lookUp (stores : Stores α) (committed i : Nat) : Answer α :=
  if i < committed then
    match stores.slot? i with
    | some v => .value v
    | none => .brokenOff
  else .refused (.indexOutOfBounds i committed)

/-- The task is part of a read of element `i` that has looked at nothing but this. -/
def Task.Reads (stores : Stores α) (committed i : Nat) : Task G α → Prop
  | .tryAll j | .tryStamp j _ | .tryLength j .. => j = i
  | .accessEnter j a | .accessLength j a => j = i ∧ a = .load
  | .tryPointer j _ _ len => j = i ∧ len = committed
  | .trySlot j _ _ len p => j = i ∧ len = committed ∧ p = stores.current
  | .tryValid j _ _ len v? => j = i ∧ len = committed ∧ v? = stores.slot? i
  | .accessPointer j a => j = i ∧ a = .load ∧ i < committed
  | .accessSlot j a p => j = i ∧ a = .load ∧ i < committed ∧ p = stores.current
  | .leave a | .rest (some a) => a = lookUp stores committed i
  | _ => False

theorem reads_ofCall (stores : Stores α) (committed i : Nat) :
    (Task.ofCall (G := G) (.read i)).Reads stores committed i := by
  simp only [Task.ofCall]
  split
  · rfl
  · exact ⟨rfl, rfl⟩

variable [Inhabited α]

/-- A read changes neither the elements nor their number, and looks at nothing else. -/
theorem reads_step (luck : Bool) {s : Shared G α} {c : Client G α} {i : Nat}
    (hlive : s.stores.Live) (hle : s.committed ≤ s.stores.capacity)
    (h : c.task.Reads s.stores s.committed i) :
    (step luck s c).1.stores = s.stores ∧ (step luck s c).1.committed = s.committed ∧
      (step luck s c).2.task.Reads s.stores s.committed i := by
  have hslot : i < s.committed → s.stores.slot? i ≠ none := by
    intro hlt hnone
    have := hlive.slot?_eq_none_iff.mp hnone
    omega
  rcases c with ⟨place, task⟩
  cases task with
  | rest last? => exact ⟨rfl, rfl, h⟩
  | tryAll j => exact ⟨rfl, rfl, h⟩
  | tryStamp j left =>
    cases left with
    | zero => exact ⟨rfl, rfl, h, rfl⟩
    | succ left =>
      simp only [step]
      split <;> exact ⟨trivial, trivial, h⟩
  | tryLength j left stamp => exact ⟨rfl, rfl, h, rfl⟩
  | tryPointer j left stamp len => exact ⟨rfl, rfl, h.1, h.2, rfl⟩
  | trySlot j left stamp len p =>
    obtain ⟨rfl, hlen, rfl⟩ := h
    exact ⟨rfl, rfl, rfl, hlen, rfl⟩
  | tryValid j left stamp len v? =>
    obtain ⟨rfl, rfl, rfl⟩ := h
    simp only [step]
    split
    · refine ⟨trivial, trivial, ?_⟩
      by_cases hlt : j < s.committed
      · cases hv : s.stores.slot? j with
        | none => exact absurd hv (hslot hlt)
        | some v => simp [Task.afterValid, Task.answer, Task.Reads, lookUp, hlt, hv]
      · cases hv : s.stores.slot? j with
        | none => simp [Task.afterValid, Task.answer, Task.Reads, lookUp, hlt]
        | some v => simp [Task.afterValid, Task.answer, Task.Reads, lookUp, hlt]
    · exact ⟨trivial, trivial, rfl⟩
  | accessEnter j a =>
    refine ⟨rfl, rfl, ?_⟩
    simp only [step, enter]
    split <;> exact h
  | accessLength j a =>
    obtain ⟨rfl, rfl⟩ := h
    by_cases hlt : j < s.committed
    · simp only [step, checkBounds, if_pos hlt]
      exact ⟨trivial, trivial, rfl, rfl, hlt⟩
    · simp only [step, checkBounds, if_neg hlt]
      refine ⟨trivial, trivial, ?_⟩
      simp [Task.Reads, lookUp, hlt]
  | accessPointer j a => exact ⟨rfl, rfl, h.1, h.2.1, h.2.2, rfl⟩
  | accessSlot j a p =>
    obtain ⟨rfl, rfl, hlt, rfl⟩ := h
    cases hv : s.stores.slot? j with
    | none => exact absurd hv (hslot hlt)
    | some v =>
      simp [step, Access.perform, show s.stores.get? s.stores.current j = some v from hv,
        Task.Reads, lookUp, hlt, hv]
  | leave a => exact ⟨rfl, rfl, h⟩
  | _ => cases h

/-- The turns of a thread that reads, with nobody else moving. -/
def readTurns (t i : Nat) (lucks : List Bool) : List (Turn (Call α)) :=
  .call t (.read i) :: lucks.map (.step t)

/-- The array with another number of tries. -/
def withTries (tries : Nat) (p : Pool (Shared G α) (Client G α)) : Pool (Shared G α) (Client G α) :=
  { p with shared := { p.shared with tries } }

variable {p : Pool (Shared G α) (Client G α)} {t i : Nat} {c : Client G α}

theorem reads_steps (lucks : List Bool) (ht : p.threads[t]? = some c)
    (hlive : p.shared.stores.Live) (hle : p.shared.committed ≤ p.shared.stores.capacity)
    (h : c.task.Reads p.shared.stores p.shared.committed i) :
    ∃ d, ((machine G α).run p (lucks.map (.step t))).threads[t]? = some d ∧
      d.task.Reads p.shared.stores p.shared.committed i := by
  induction lucks generalizing p c with
  | nil => exact ⟨c, ht, h⟩
  | cons luck lucks ih =>
    change ∃ d, ((machine G α).run ((machine G α).act p (.step t luck)) _).threads[t]? = some d ∧ _
    cases hrest : c.task.rests with
    | true =>
      rw [Machine.act_step_of_rest fun u hu => by
        obtain rfl := Option.some.inj (ht.symm.trans hu)
        exact hrest]
      exact ih ht hlive hle h
    | false =>
      obtain ⟨hstores, hcommitted, hnext⟩ := reads_step luck hlive hle h
      rw [Machine.act_step ht hrest]
      obtain ⟨d, hd, hreads⟩ := ih (p := p.put t (step luck p.shared c).1 (step luck p.shared c).2)
        ((Pool.getElem?_put_iff ht).mpr (.inl ⟨rfl, rfl⟩)) (by
          rw [Pool.shared_put, hstores]
          exact hlive) (by
          rw [Pool.shared_put, hstores, hcommitted]
          exact hle) (by
          rw [Pool.shared_put, hstores, hcommitted]
          exact hnext)
      rw [Pool.shared_put, hstores, hcommitted] at hreads
      exact ⟨d, hd, hreads⟩

/-- The read is handed out, and then its thread takes steps. -/
theorem run_readTurns (lucks : List Bool) (ht : p.threads[t]? = some c)
    (hrest : c.task.rests = true) : (machine G α).run p (readTurns t i lucks) =
      (machine G α).run (p.put t p.shared { c with task := .ofCall (.read i) })
        (lucks.map (.step t)) := by
  show (machine G α).run ((machine G α).act p (.call t (.read i))) (lucks.map (.step t)) = _
  rw [Machine.act_call ht hrest]
  rfl

/-- However many tries there are, a read is answered with what it comes to at this moment. -/
theorem reply?_readTurns (tries : Nat) (lucks : List Bool) {a : Answer α}
    (ht : p.threads[t]? = some c) (hrest : c.task.rests = true) (hlive : p.shared.stores.Live)
    (hle : p.shared.committed ≤ p.shared.stores.capacity)
    (h : (((machine G α).run (withTries tries p) (readTurns t i lucks)).threads[t]?.bind
      (·.task.reply?)) = some a) : a = lookUp p.shared.stores p.shared.committed i := by
  have ht' : (withTries tries p).threads[t]? = some c := ht
  obtain ⟨d, hd, hreads⟩ := reads_steps lucks
    (p := (withTries tries p).put t (withTries tries p).shared ⟨c.place, .ofCall (.read i)⟩)
    ((Pool.getElem?_put_iff ht').mpr (.inl ⟨rfl, rfl⟩)) hlive hle (reads_ofCall _ _ i)
  rw [run_readTurns lucks ht' hrest, hd] at h
  rcases d with ⟨place, task⟩
  cases task with
  | rest last? =>
    cases last? with
    | none => cases hreads
    | some b =>
      cases h
      exact hreads
  | _ => cases h

/-- Every thread of an array under a gate takes the same steps. -/
theorem goes_as {t n : Nat} {a b : Shared G α × Client G α}
    (h : (machine G α).Goes 0 n a b) : (machine G α).Goes t n a b := by
  induction h with
  | refl n a => exact .refl n a
  | step hrest _ ih => exact .step hrest ih

/-- A thread that has the gate to itself is answered, however many tries there are. -/
theorem exists_reply?_readTurns {Lone : G.Word → G.Place → Prop} (hsolo : G.Solo Lone)
    (hoptimistic : G.optimistic = true) (tries : Nat) (ht : p.threads[t]? = some c)
    (hrest : c.task.rests = true) (hlive : p.shared.stores.Live)
    (hlone : Lone p.shared.gate c.place) :
    ∃ k a, ((machine G α).run (withTries tries p)
      (readTurns t i (List.replicate k true))).threads[t]?.bind (·.task.reply?) = some a := by
  obtain ⟨st, hends⟩ := hlive
  have hholds : Holds (withTries tries p).shared p.shared.limits p.shared.maxCapacity tries
      p.shared.reserved ⟨st, p.shared.committed⟩ := ⟨⟨hends, rfl, rfl, rfl, rfl⟩, rfl⟩
  obtain ⟨s', place', hgoes, -⟩ := settles_try hsolo hholds hlone hoptimistic i
  have ht' : (withTries tries p).threads[t]? = some c := ht
  obtain ⟨k, -, hk⟩ := Machine.run_of_goes (goes_as (t := t) hgoes)
    (p := (withTries tries p).put t (withTries tries p).shared ⟨c.place, .tryAll i⟩) rfl
    ((Pool.getElem?_put_iff ht').mpr (.inl ⟨rfl, rfl⟩))
  have hcall : (Task.ofCall (.read i) : Task G α) = .tryAll i := by
    simp [Task.ofCall, hoptimistic]
  refine ⟨k, ((⟨st, p.shared.committed⟩ : Parts α).access (beyond G tries) i .load).2, ?_⟩
  rw [run_readTurns _ ht' hrest, List.map_replicate, hcall, hk]
  rfl

end

/-! ## In every run -/

namespace Setup

variable {α : Type} [Inhabited α] {S : Setup α} {turns : List (Turn (Call α))}
  {turn : Turn (Call α)} {t i : Nat} {a : Answer α} {c : Client GateKind.stamped.gate α}

/-- Exclusive mode was entered less than 2⁴⁷ times in the try that thread `t` is at. -/
def Brief (S : Setup α) (t : Nat) (turns : List (Turn (Call α))) : Prop :=
  ¬ Since (S.Trying t) (fun past => S.acquisitions past + 2 ^ 47 ≤ S.acquisitions turns) turns

/-- A try that was valid and not too long was not disturbed. -/
theorem Trial.undisturbed {task : Task GateKind.stamped.gate α} {stamp : Stamped.Stamp}
    {taken : Nat} (h : S.Trial turns t task stamp taken) (hbrief : S.Brief t turns)
    (hvalid : Stamped.valid (S.after GateKind.stamped.gate turns).shared.gate stamp = true) :
    S.acquisitions turns = taken := by
  have hle := h.le
  have hnumber := S.number_after turns
  rw [(Stamped.valid_iff h.bits).mp hvalid] at hnumber
  have hlt : S.acquisitions turns < taken + 2 ^ 47 := by
    refine Nat.lt_of_not_le fun hge => hbrief (h.since.mono fun past hpast => ?_)
    omega
  -- in exclusive mode the number is odd, and otherwise the stamp is out of date after one entry
  cases hexclusive : exclusive (S.after GateKind.stamped.gate turns) with
  | false =>
    rw [hexclusive, if_neg Bool.false_ne_true] at hnumber
    omega
  | true =>
    rw [hexclusive, if_pos rfl] at hnumber
    omega

/-! ## Threads at rest -/

theorem waits_after (S : Setup α) (turns : List (Turn (Call α))) :
    Stamped.Waits (S.after GateKind.stamped.gate turns).shared.gate.waiting
      (places (S.after GateKind.stamped.gate turns)) :=
  (S.orderly_after Gate.counts_stamped turns).fits.waits

/-- With every thread at rest, nobody is in or at the lock. -/
theorem lone_of_rest (hrest : ∀ {t : Nat} {c : Client GateKind.stamped.gate α},
    (S.after GateKind.stamped.gate turns).threads[t]? = some c → c.task.rests = true)
    (ht : (S.after GateKind.stamped.gate turns).threads[t]? = some c) :
    Stamped.Quiet (S.after GateKind.stamped.gate turns).shared.gate ∧ c.place = .out := by
  have horderly := (S.sound_after .stamped turns).orderly
  have hout {u : Nat} {d : Client GateKind.stamped.gate α}
      (hu : (S.after GateKind.stamped.gate turns).threads[u]? = some d) : d.place = .out := by
    have hstands := horderly.stands hu
    have hresting := hrest hu
    rcases d with ⟨place, task⟩
    cases task with
    | rest last? => exact eq_of_beq hstands
    | _ => cases hresting
  refine ⟨Stamped.quiet_of_out horderly.fits (S.waits_after turns) ?_, hout ht⟩
  intro u q hq
  rw [places, Lock.View.places, List.getElem?_map, Array.getElem?_toList] at hq
  obtain ⟨d, hu, rfl⟩ := Option.map_eq_some_iff.mp hq
  exact hout hu

/-! ## The promise -/

/-- What a read of element `i` should be answered now. -/
inductive Shows (S : Setup α) (i : Nat) : Answer α → List (Turn (Call α)) → Prop
  | element {v : α} {past : List (Turn (Call α))} :
    S.Element GateKind.stamped.gate i v past → Shows S i (.value v) past
  | beyond {len : Nat} {past : List (Turn (Call α))} :
    S.Length GateKind.stamped.gate len past → len ≤ i →
      Shows S i (.refused (.indexOutOfBounds i len)) past

theorem shows_lookUp (hlen : S.len ≤ S.store.capacity) (turns : List (Turn (Call α))) (i : Nat) :
    S.Shows i (lookUp (S.after GateKind.stamped.gate turns).shared.stores
      (S.after GateKind.stamped.gate turns).shared.committed i) turns := by
  by_cases hi : i < (S.after GateKind.stamped.gate turns).shared.committed
  · obtain ⟨v, helement⟩ := element_of_lt (k := .stamped) hlen hi
    rw [lookUp, if_pos hi, helement.2]
    exact .element helement
  · rw [lookUp, if_neg hi]
    exact .beyond rfl (Nat.le_of_not_lt hi)

/-- What a read is answered was right at some moment of the call. -/
theorem shows_of_answered (hlen : S.len ≤ S.store.capacity)
    (h : (machine GateKind.stamped.gate α).event? (S.after GateKind.stamped.gate turns) turn =
      some (.answered t a))
    (hcall : lastCall? (S.history GateKind.stamped.gate turns) t = some (.read i))
    (hbrief : S.Brief t turns) : S.During GateKind.stamped.gate t (S.Shows i a) turns := by
  have hunbroken : (machine GateKind.stamped.gate α).event? (S.after GateKind.stamped.gate turns)
      turn ≠ some (.answered t .brokenOff) := unbroken_after hlen turn t
  rw [h] at hunbroken
  obtain ⟨luck, c, -, ht, hbusy, hending⟩ := ending_of_answered h
  obtain ⟨call, hlast, hserves⟩ := S.serves_after ht hbusy
  obtain rfl := Option.some.inj (hcall.symm.trans hlast)
  have hfound := S.found_after (k := .stamped) ht hbusy
  rcases c with ⟨place, task⟩
  cases hending with
  | leave =>
    cases a with
    | value v => exact (hfound i hcall).mono fun past hin => .element hin.2
    | refused e =>
      obtain ⟨len, rfl, hle, hlength⟩ := hfound i hcall
      exact hlength.mono fun past hpast => .beyond hpast hle
    | brokenOff => exact absurd rfl hunbroken
    | done =>
      obtain ⟨j, v, ⟨⟩⟩ := hserves
    | overflowed =>
      obtain ⟨g, hg⟩ := hserves
      cases g <;> cases hg
    | values => cases hserves
    | index | count | waiting => cases hserves
  | @valid j left len stamp v? a hvalid ha =>
    obtain rfl : i = j := Call.read.inj hserves
    obtain ⟨taken, htrial⟩ := trial_after hlen ht rfl
    obtain ⟨-, hvalue, hnone⟩ := htrial.fresh (htrial.undisturbed hbrief hvalid)
    rcases answer_of_afterValid ha with ⟨v, rfl, hv, hi⟩ | ⟨rfl, hbeyond⟩
    · exact (hvalue v hv hi).mono fun past hpast => .element hpast
    · exact hfound.2.mono fun past hpast => .beyond hpast (hbeyond.elim hnone id)
  | length | measure | measureLeave => cases hserves
  | commit =>
    obtain ⟨v, ⟨⟩⟩ := hserves
  | roomy honly => cases honly _ hserves
  | full honly | overflow honly => cases honly _ hserves

/-- What thread `t` is answered if it reads element `i` now and nobody else moves, with some number
of tries. -/
def readAlone? (S : Setup α) (turns : List (Turn (Call α))) (t i tries : Nat)
    (lucks : List Bool) : Option (Answer α) :=
  ((machine GateKind.stamped.gate α).run
    (withTries tries (S.after GateKind.stamped.gate turns)) (readTurns t i lucks)).threads[t]?.bind
      (·.task.reply?)

/-- What an array under the stamped lock promises of its reads, after some turns. -/
structure ReadsAgree (S : Setup α) (turns : List (Turn (Call α))) : Prop where
  /-- What a read is answered, whether by a try or inside the lock, it should have been answered at
  some moment of the call. -/
  answered : ∀ {turn : Turn (Call α)} {t i : Nat} {a : Answer α},
    (machine GateKind.stamped.gate α).event? (S.after GateKind.stamped.gate turns) turn =
      some (.answered t a) →
    lastCall? (S.history GateKind.stamped.gate turns) t = some (.read i) → S.Brief t turns →
    S.During GateKind.stamped.gate t (S.Shows i a) turns
  /-- While nobody else moves, every number of tries leads to the same answer, if to any; -/
  alone : ∀ {t : Nat} {c : Client GateKind.stamped.gate α} (i : Nat),
    (S.after GateKind.stamped.gate turns).threads[t]? = some c → c.task.rests = true →
    ∃ a, S.Shows i a turns ∧
      ∀ (tries : Nat) (lucks : List Bool) (b : Answer α),
        S.readAlone? turns t i tries lucks = some b → b = a
  /-- and if nobody is in the middle of a call, to one. -/
  ends : ∀ {t : Nat} {c : Client GateKind.stamped.gate α} (i tries : Nat),
    (∀ {u : Nat} {d : Client GateKind.stamped.gate α},
      (S.after GateKind.stamped.gate turns).threads[u]? = some d → d.task.rests = true) →
    (S.after GateKind.stamped.gate turns).threads[t]? = some c →
    ∃ n a, S.readAlone? turns t i tries (List.replicate n true) = some a

/-- Under the stamped lock the tries without it and the reads inside it agree. -/
theorem reads_agree (S : Setup α) (hlen : S.len ≤ S.store.capacity)
    (turns : List (Turn (Call α))) : S.ReadsAgree turns where
  answered := shows_of_answered hlen
  alone i ht hrest := by
    have hlive := (S.sound_after .stamped turns).informed.live
    have hle := committed_le_capacity (k := .stamped) hlen turns
    exact ⟨_, shows_lookUp hlen turns i, fun tries lucks b hb =>
      reply?_readTurns tries lucks ht hrest hlive hle hb⟩
  ends i tries hrest ht :=
    exists_reply?_readTurns Gate.solo_stamped rfl tries ht (hrest ht)
      (S.sound_after .stamped turns).informed.live (lone_of_rest hrest ht)

/-- One thread starts to read; another appends past the end of the store, so that the first try
fails. -/
def overtaken : List (Turn (Call Nat)) :=
  [.call 1 (.read 0), .call 0 (.append 10)] ++ List.replicate 3 (.step 1 true) ++
    List.replicate 24 (.step 0 true) ++ List.replicate 12 (.step 1 true)

theorem reads_agree_overtaken :
    full.len ≤ full.store.capacity ∧
    full.history GateKind.stamped.gate overtaken =
      [.called 1 (.read 0), .called 0 (.append 10), .answered 0 (.index 1), .answered 1 (.value 7)] ∧
    full.acquisitions overtaken = 1 ∧ full.ReadsAgree overtaken :=
  ⟨by decide, by decide +kernel, by decide +kernel, reads_agree full (by decide) overtaken⟩

end Setup

end Growable.SharedArray.Gated
