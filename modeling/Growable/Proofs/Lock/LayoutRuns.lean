import Growable.Proofs.Lock.Clients

/-!
# Runs of the layout lock

Whatever any number of threads do with a layout lock, its word either counts the threads in access
or says that one is in a change, and no release can spoil it: there is an access to take away
whenever one ends, and none to forget when a change ends. Beside the word stand the changes announced
and not granted yet. While there are any, no access gets in that begins now: only threads that had
found none announced still can, each of them once.

A thread here has one use of the lock at a time. It is in a mode from the exchange that wins it to
the subtraction or store that gives it up; a change that was won takes its announcement back
afterwards.
-/

namespace Growable.Lock.Layout

open Gate (Client Request Shift places after after_concat after_append)

/-! ## One turn -/

/-- The thread has announced a change and not taken that back. -/
def Place.announces : Place → Bool
  | .claim | .retract => true
  | _ => false

/-- The thread has found no change announced and may get in. -/
def Place.tries : Place → Bool
  | .peek | .join _ => true
  | _ => false

/-- What a turn can do to the word and to the place of the thread that it moves. -/
inductive Steps (w : Layout) : Place → Layout → Place → Prop
  | stay {p : Place} : Steps w p w p
  /-- No change is announced. -/
  | look : w.pending = 0 → Steps w .out w .peek
  /-- There is room for one more access. -/
  | see : w.admits = true → Steps w .peek w (.join w.state)
  /-- An access has to begin again. -/
  | giveUp {p : Place} : p.tries = true → Steps w p w .out
  | join : Steps w (.join w.state) { w with state := w.state + 1 } .access
  | announce : Steps w .out { w with pending := w.pending + 1 } .claim
  | claim : w.state = 0 → Steps w .claim { w with state := changeBit } .retract
  | retract : Steps w .retract { w with pending := w.pending - 1 } .change
  | endAccess : Steps w .access { w with state := w.state - 1 } .out
  | endChange : Steps w .change { w with state := 0 } .out

theorem steps_seek (m : Mode) (luck : Bool) (w : Layout) (p : Place) :
    Steps w p (seek m luck w p).1 (seek m luck w p).2 := by
  cases p with
  | out =>
    cases m with
    | shared =>
      simp only [seek]
      split
      · rename_i hnone
        exact .look hnone
      · exact .stay
    | exclusive => exact .announce
  | peek =>
    simp only [seek]
    split
    · rename_i hroom
      exact .see hroom
    · exact .giveUp rfl
  | join seen =>
    simp only [seek]
    split
    · rename_i hsame
      obtain rfl : w.state = seen := eq_of_beq (Bool.and_eq_true .. ▸ hsame).2
      exact .join
    · exact .giveUp rfl
  | claim =>
    simp only [seek]
    split
    · rename_i hfree
      exact .claim (eq_of_beq (Bool.and_eq_true .. ▸ hfree).2)
    · exact .stay
  | retract => exact .retract
  | access | change => exact .stay

theorem steps_leave (w : Layout) (p : Place) : Steps w p (leave w p).1 (leave w p).2 := by
  cases p with
  | access => exact .endAccess
  | change => exact .endChange
  | _ => exact .stay

variable {w w' : Gate.layout.Word} {ps : List Place} {i : Nat} {p q : Gate.layout.Place}

/-- A single attempt begins and fails outside, so it is nothing but steps. -/
theorem steps_of_shift (h : Shift .layout Toward w p w' q) : Steps w p w' q := by
  cases h with
  | stay | enroll | retire => exact .stay
  | @attempt m q hout hq =>
    obtain rfl : p = .out := eq_of_beq hout
    cases m with
    | shared =>
      cases hq
      exact .stay
    | exclusive => cases hq
  | seek m luck => exact steps_seek m luck w p
  | @retreat m luck q _ hretreat =>
    have hsteps := steps_seek m luck w p
    change Layout.Steps w p (Layout.seek m luck w p).1 q
    change Gate.layout.retreat? (Layout.seek m luck w p).2 = some q at hretreat
    generalize Layout.seek m luck w p = r at hretreat hsteps
    rcases r with ⟨w', p'⟩
    cases p' with
    | out =>
      cases hretreat
      exact hsteps
    | _ => cases hretreat
  | leave => exact steps_leave w p

/-- The words count the threads that hold the lock and those that have announced a change. -/
structure Counts (w : Layout) (ps : List Place) : Prop where
  fits : Fits w ps
  pending : w.pending = ps.countP Place.announces

theorem counts_replicate (n : Nat) : Counts {} (.replicate n .out) := by
  refine ⟨fits_replicate n, ?_⟩
  rw [List.countP_replicate, show Place.announces .out = false from rfl,
    if_neg Bool.false_ne_true]

theorem Counts.announced (h : Counts w ps) (hp : ps[i]? = some p) (hyes : p.announces = true) :
    0 < w.pending := by
  rw [h.pending]
  exact countP_pos_of_getElem? hp hyes

/-- While a thread is in access the word is not zero. -/
theorem Fits.toNat_endAccess (h : Fits w ps) (hp : ps[i]? = some .access) :
    (w.state - 1).toNat + 1 = w.state.toNat := by
  have hstate := h.state
  have hpos : 0 < ps.countP Place.shares := countP_pos_of_getElem? hp rfl
  have hle : (1 : UInt64) ≤ w.state := by
    rw [UInt64.le_iff_toNat_le]
    show 1 ≤ w.state.toNat
    omega
  rw [UInt64.toNat_sub_of_le _ _ hle]
  show w.state.toNat - 1 + 1 = w.state.toNat
  omega

/-- A thread moves without announcing a change or taking that back. -/
theorem Counts.put (h : Counts w ps) (hp : ps[i]? = some p) (hfits : Fits w' (ps.set i q))
    (hpending : w'.pending = w.pending) (hsame : q.announces = p.announces) :
    Counts w' (ps.set i q) := by
  refine ⟨hfits, ?_⟩
  have hset := countP_set_add Place.announces hp (b := q)
  have hcount := h.pending
  rw [hsame] at hset
  omega

/-- Whatever a turn does, the words keep counting. -/
theorem Counts.steps (h : Counts w ps) (hp : ps[i]? = some p) (hsteps : Steps w p w' q) :
    Counts w' (ps.set i q) := by
  have hcount := h.pending
  cases hsteps with
  | stay =>
    rw [set_of_getElem? hp]
    exact h
  | look => exact h.put hp (h.fits.move hp rfl rfl rfl trivial) rfl rfl
  | see hroom => exact h.put hp (h.fits.move hp rfl rfl rfl ((admits_iff w).mp hroom)) rfl rfl
  | giveUp htries =>
    cases p with
    | peek | join => exact h.put hp (h.fits.move hp rfl rfl rfl trivial) rfl rfl
    | _ => cases htries
  | join => exact h.put hp (h.fits.join hp) rfl rfl
  | announce =>
    have hset := countP_set_add Place.announces hp (b := .claim)
    exact ⟨h.fits.move hp rfl rfl rfl trivial, (congrArg (· + 1) hcount).trans hset.symm⟩
  | claim hfree => exact h.put hp (h.fits.claim hp hfree) rfl rfl
  | retract =>
    have hset := countP_set_add Place.announces hp (b := .change)
    exact ⟨h.fits.move hp rfl rfl rfl trivial,
      (congrArg (· - 1) (hcount.trans hset.symm)).trans (Nat.add_sub_cancel ..)⟩
  | endAccess => exact h.put hp (h.fits.leave_access hp) rfl rfl
  | endChange => exact h.put hp (h.fits.leave_change hp) rfl rfl

/-- A thread finds no change announced only while there is none. -/
theorem Steps.tries (h : Steps w p w' q) (hpending : w.pending ≠ 0) (htries : q.tries = true) :
    p.tries = true := by
  cases h with
  | stay => exact htries
  | look hnone => exact absurd hnone hpending
  | see => rfl
  | _ => cases htries

theorem not_tries_of_shares (h : p.shares = true) : p.tries = false := by
  cases p with
  | access => rfl
  | _ => cases h

/-- A thread gets into access by an exchange. -/
theorem Steps.joins (h : Steps w p w' q) (hbefore : p.shares = false) (hafter : q.shares = true) :
    p.tries = true := by
  cases h with
  | stay =>
    rw [hbefore] at hafter
    cases hafter
  | join => rfl
  | _ => cases hafter

theorem outside_of_holds {m : Mode} (p : Place) (h : holds m p = true) :
    Gate.layout.outside p = false := by
  cases p with
  | out => cases m <;> cases h
  | _ => rfl

theorem not_holds_of_announces (p : Place) (h : p.announces = true) :
    holds .exclusive p = false := by
  cases p with
  | claim | retract => rfl
  | _ => cases h

theorem eq_access_of_holds (h : holds .shared p = true) : p = .access := by
  cases p with
  | access => rfl
  | _ => cases h

theorem eq_change_of_holds (h : holds .exclusive p = true) : p = .change := by
  cases p with
  | change => rfl
  | _ => cases h

theorem Steps.endsAccess (h : Steps w .access w' .out) : w'.state = w.state - 1 := by
  cases h with
  | endAccess => rfl
  | giveUp htries => cases htries

theorem Steps.endsChange (h : Steps w .change w' .out) : w'.state = 0 := by
  cases h with
  | endChange => rfl
  | giveUp htries => cases htries

theorem Steps.grants (h : Steps w p w' .change) (hannounces : p.announces = true) :
    w'.pending = w.pending - 1 := by
  cases h with
  | stay => cases hannounces
  | retract => rfl

/-! ## In every run -/

/-- The threads in a change, also before one has taken its announcement back. -/
def changes (p : Pool Gate.layout.Word (Client .layout)) : Nat :=
  (places p).countP Place.owns

/-- The threads in access. -/
def accesses (p : Pool Gate.layout.Word (Client .layout)) : Nat :=
  (places p).countP Place.shares

/-- The threads that have announced a change and not taken that back. -/
def announced (p : Pool Gate.layout.Word (Client .layout)) : Nat :=
  (places p).countP Place.announces

/-- The thread that a turn lets into access. -/
def entered? : Pool Gate.layout.Word (Client .layout) → Turn (Request Unit) → Option Nat :=
  Gate.passes? (fun q => !Place.shares q) Place.shares

/-- The threads that some turns let into access, in their order. -/
def entered (p : Pool Gate.layout.Word (Client .layout)) (turns : List (Turn (Request Unit))) :
    List Nat :=
  (Gate.client .layout).observe entered? p turns

theorem toward_of_attempt? {m : Mode} (h : Gate.layout.attempt? m = some q) : Toward m q := by
  cases m <;> cases h
  exact trivial

theorem counts_shift (h : Counts w ps) (hp : ps[i]? = some p)
    (hshift : Shift .layout Toward w p w' q) : Counts w' (ps.set i q) :=
  h.steps hp (steps_of_shift hshift)

theorem kept_after (n : Nat) (turns : List (Turn (Request Unit))) :
    Gate.Kept Counts Toward (after .layout n turns) :=
  Gate.kept_after Gate.excludes_layout toward_of_attempt? counts_shift counts_replicate n turns

variable {pool : Pool Gate.layout.Word (Client .layout)} {turn : Turn (Request Unit)} {t : Nat}

theorem moved_of_kept (h : Gate.Kept Counts Toward pool) (turn : Turn (Request Unit)) :
    Gate.Moved Toward pool turn ((Gate.client .layout).act pool turn) :=
  h.moved Gate.excludes_layout toward_of_attempt? turn

theorem steps_of_passes? (hkept : Gate.Kept Counts Toward pool) {source target : Place → Bool}
    (hdisjoint : ∀ q, source q = true → target q = false)
    (h : Gate.passes? source target pool turn = some t) :
    ∃ p q, (places pool)[t]? = some p ∧ source p = true ∧ target q = true ∧
      Steps pool.shared p ((Gate.client .layout).act pool turn).shared q ∧
      places ((Gate.client .layout).act pool turn) = (places pool).set t q := by
  obtain ⟨c, d, w, -, hc, hact, hshift, hsource, htarget⟩ :=
    Gate.shift_of_passes? (moved_of_kept hkept turn) hdisjoint h
  refine ⟨c.place, d.place, Gate.places_get? hc, hsource, htarget, ?_, ?_⟩
  · rw [hact]
    exact steps_of_shift hshift
  · rw [hact, Gate.places_put]

/-! ## While changes are announced -/

/-- A turn taken while changes are announced lets no thread find out that there are none. -/
theorem tries_of_act (hkept : Gate.Kept Counts Toward pool) (hpending : pool.shared.pending ≠ 0)
    {q : Place} (hq : (places ((Gate.client .layout).act pool turn))[t]? = some q)
    (htries : q.tries = true) : ∃ p, (places pool)[t]? = some p ∧ p.tries = true := by
  have hmoved := moved_of_kept hkept turn
  generalize (Gate.client .layout).act pool turn = pool' at hmoved hq
  cases hmoved with
  | stay => exact ⟨q, hq, htries⟩
  | shift hc _ hshift =>
    rw [Gate.places_put] at hq
    rcases (getElem?_set_iff (Gate.places_get? hc)).mp hq with ⟨rfl, rfl⟩ | ⟨-, hq⟩
    · exact ⟨_, Gate.places_get? hc, (steps_of_shift hshift).tries hpending htries⟩
    · exact ⟨q, hq, htries⟩

/-- While changes are announced only threads get in that had found none before, each once. -/
theorem entered_of_pending (hkept : Gate.Kept Counts Toward pool)
    (more : List (Turn (Request Unit))) (hpending : ∀ k < more.length,
      ((Gate.client .layout).run pool (more.take k)).shared.pending ≠ 0) :
    (entered pool more).Nodup ∧
      ∀ t ∈ entered pool more, ∃ p, (places pool)[t]? = some p ∧ p.tries = true := by
  induction more generalizing pool with
  | nil => exact ⟨List.nodup_nil, fun t ht => absurd ht List.not_mem_nil⟩
  | cons turn more ih =>
    have hnow : pool.shared.pending ≠ 0 := hpending 0 (Nat.succ_pos _)
    have hkept' : Gate.Kept Counts Toward ((Gate.client .layout).act pool turn) :=
      hkept.act Gate.excludes_layout toward_of_attempt? counts_shift turn
    obtain ⟨hnodup, hlater⟩ := ih hkept' fun k hk => hpending (k + 1) (Nat.succ_lt_succ hk)
    have hmem : ∀ t ∈ entered ((Gate.client .layout).act pool turn) more,
        ∃ p, (places pool)[t]? = some p ∧ p.tries = true := by
      intro t ht
      obtain ⟨q, hq, htries⟩ := hlater t ht
      exact tries_of_act hkept hnow hq htries
    have hsplit : entered pool (turn :: more) =
        (entered? pool turn).toList ++ entered ((Gate.client .layout).act pool turn) more := rfl
    rw [hsplit]
    cases hpasses : entered? pool turn with
    | none => exact ⟨hnodup, hmem⟩
    | some t =>
      obtain ⟨p, q, hp, hbefore, hafter, hsteps, hplaces⟩ :=
        steps_of_passes? hkept (by simp) hpasses
      have htries : p.tries = true := hsteps.joins (by simpa using hbefore) hafter
      refine ⟨List.nodup_cons.mpr ⟨?_, hnodup⟩, ?_⟩
      · -- once in, the thread has to leave before it can try again
        intro ht
        obtain ⟨q', hq', htries'⟩ := hlater t ht
        rw [hplaces, getElem?_set_iff hp] at hq'
        rcases hq' with ⟨-, rfl⟩ | ⟨hne, -⟩
        · rw [not_tries_of_shares hafter] at htries'
          cases htries'
        · exact hne rfl
      · intro u hu
        rcases List.mem_cons.mp hu with rfl | hu
        · exact ⟨p, hp, htries⟩
        · exact hmem u hu

/-! ## What the lock promises -/

/-- What is promised to the threads that use a layout lock. -/
structure Guards (n : Nat) (turns : List (Turn (Request Unit))) : Prop where
  /-- The word marks the one thread in a change, or counts the threads in access. -/
  word : changes (after .layout n turns) = 1 ∧ accesses (after .layout n turns) = 0 ∧
      (after .layout n turns).shared.state = changeBit ∨
    changes (after .layout n turns) = 0 ∧
      (after .layout n turns).shared.state.toNat = accesses (after .layout n turns) ∧
      accesses (after .layout n turns) ≤ 2 ^ 63 - 1
  pending : (after .layout n turns).shared.pending = announced (after .layout n turns)
  /-- An access that ends takes one from a word that is not zero, -/
  endAccess : ∀ {turn : Turn (Request Unit)} {t : Nat},
    Gate.passes? (holds .shared) Gate.layout.outside (after .layout n turns) turn = some t →
    (after .layout n (turns ++ [turn])).shared.state.toNat + 1 =
      (after .layout n turns).shared.state.toNat
  /-- a change that ends has no access to forget, -/
  endChange : ∀ {turn : Turn (Request Unit)} {t : Nat},
    Gate.passes? (holds .exclusive) Gate.layout.outside (after .layout n turns) turn = some t →
    (after .layout n turns).shared.state = changeBit ∧ accesses (after .layout n turns) = 0 ∧
      (after .layout n (turns ++ [turn])).shared.state = 0
  /-- and a change that is granted takes back an announcement that was counted. -/
  grant : ∀ {turn : Turn (Request Unit)} {t : Nat},
    Gate.passes? Place.announces (holds .exclusive) (after .layout n turns) turn = some t →
    (after .layout n (turns ++ [turn])).shared.pending + 1 = (after .layout n turns).shared.pending
  /-- For as long as changes are announced, only threads get in that have found none before, and
  each of them once. -/
  priority : ∀ more : List (Turn (Request Unit)),
    (∀ k < more.length, (after .layout n (turns ++ more.take k)).shared.pending ≠ 0) →
    (entered (after .layout n turns) more).Nodup ∧
      ∀ t ∈ entered (after .layout n turns) more,
        ∃ p, (places (after .layout n turns))[t]? = some p ∧ p.tries = true

/-- Whatever the threads do with the lock, a change is alone, no release spoils the word, and
announced changes go before the accesses that come after them. -/
theorem guards_after (n : Nat) (turns : List (Turn (Request Unit))) : Guards n turns := by
  have hkept := kept_after n turns
  have hstate := hkept.inv.fits.state
  constructor
  · rcases hstate with ⟨hnone, hcount, hroom⟩ | ⟨hone, hnobody, hword⟩
    · exact .inr ⟨hnone, hcount, Nat.le_sub_one_of_lt hroom⟩
    · exact .inl ⟨hone, hnobody, UInt64.toNat_inj.mp hword⟩
  · exact hkept.inv.pending
  · intro turn t hpasses
    obtain ⟨p, q, hp, hholds, hout, hsteps, -⟩ :=
      steps_of_passes? hkept outside_of_holds hpasses
    obtain rfl : p = .access := eq_access_of_holds hholds
    obtain rfl : q = .out := eq_of_beq hout
    rw [after_concat, hsteps.endsAccess]
    exact hkept.inv.fits.toNat_endAccess hp
  · intro turn t hpasses
    obtain ⟨p, q, hp, hholds, hout, hsteps, -⟩ :=
      steps_of_passes? hkept outside_of_holds hpasses
    obtain rfl : p = .change := eq_change_of_holds hholds
    obtain rfl : q = .out := eq_of_beq hout
    have hpos : 0 < changes (after .layout n turns) := countP_pos_of_getElem? hp rfl
    rw [after_concat]
    rcases hstate with ⟨hnone, -⟩ | ⟨-, hnobody, hword⟩
    · exact absurd hnone (Nat.ne_of_gt hpos)
    · exact ⟨UInt64.toNat_inj.mp hword, hnobody, hsteps.endsChange⟩
  · intro turn t hpasses
    obtain ⟨p, q, hp, hannounces, hholds, hsteps, -⟩ :=
      steps_of_passes? hkept not_holds_of_announces hpasses
    obtain rfl : q = .change := eq_change_of_holds hholds
    rw [after_concat, hsteps.grants hannounces]
    exact Nat.sub_add_cancel (hkept.inv.announced hp hannounces)
  · intro more hpending
    refine entered_of_pending hkept more fun k hk => ?_
    rw [← after_append]
    exact hpending k hk

/-- Thread 0 has found no change announced when thread 1 announces one, and still gets in; thread 2
comes later and does not. -/
example : entered (after .layout 3 [.call 0 (.enter .shared), .call 1 (.enter .exclusive),
    .call 2 (.enter .shared), .step 0 true, .step 1 true])
    [.step 2 true, .step 0 true, .step 2 true, .step 0 true, .step 1 true, .step 2 true] = [0] := by
  decide +kernel

end Growable.Lock.Layout
