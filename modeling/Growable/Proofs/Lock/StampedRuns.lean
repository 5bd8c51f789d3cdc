import Growable.Proofs.Lock.Clients
import Growable.Proofs.Lock.Versions

/-!
# Runs of the stamped lock

Whatever any number of threads do with a stamped lock, its word is a function of three numbers: how
often exclusive mode was left so far, whether a thread is in it, and how many threads are in shared
mode. Shared mode moves the lowest field only, so a stamp is valid as long as no thread is in
exclusive mode and the version is the same, and the version comes back after 2⁴⁷ releases, neither
sooner nor later.

A thread here has one use of the lock at a time. It holds the lock from the exchange that wins it to
the addition or subtraction that gives it up.
-/

namespace Growable.Lock.Stamped

open Gate (Client Request Shift places after after_concat)

/-! ## One turn -/

/-- The words count the threads that hold the lock and those that wait for it. -/
structure Counts (w : Stamped) (ps : List Place) : Prop where
  fits : Fits w ps
  waits : Waits w.waiting ps

variable {w w' : Gate.stamped.Word} {ps : List Place} {i : Nat} {p q : Gate.stamped.Place}

theorem counts_replicate (n : Nat) : Counts {} (.replicate n .out) :=
  ⟨fits_replicate n, waits_replicate n⟩

/-- A thread moves without changing what is counted. -/
theorem Counts.move (h : Counts w ps) (hp : ps[i]? = some p) (hshares : q.shares = p.shares)
    (howns : q.owns = p.owns) (hwaits : q.waits = p.waits) (hq : q.Sound) :
    Counts w (ps.set i q) :=
  ⟨h.fits.move hp rfl hshares howns hq, h.waits.move hp hwaits⟩

theorem Counts.seek (h : Counts w ps) (hp : ps[i]? = some p) (m : Mode) (luck : Bool) :
    Counts (seek m luck w p).1 (ps.set i (seek m luck w p).2) :=
  ⟨h.fits.seek hp m luck, h.waits.seek hp m luck⟩

/-- A single attempt fails before its thread is counted. -/
theorem of_retreat? (h : Gate.stamped.retreat? p = some q) :
    q = .out ∧ p.shares = false ∧ p.owns = false ∧ p.waits = false := by
  cases p with
  | out | enlist =>
    cases h
    exact ⟨rfl, rfl, rfl, rfl⟩
  | _ => cases h

theorem Counts.shift (h : Counts w ps) (hp : ps[i]? = some p)
    (hshift : Shift .stamped Toward w p w' q) : Counts w' (ps.set i q) := by
  have hsame : Counts w (ps.set i p) := by
    rw [set_of_getElem? hp]
    exact h
  cases hshift with
  | stay | enroll | retire => exact hsame
  | @attempt m q hout hq =>
    obtain rfl : p = .out := eq_of_beq hout
    cases m with
    | shared =>
      cases hq
      exact h.move hp rfl rfl rfl trivial
    | exclusive =>
      cases hq
      exact hsame
  | seek m luck => exact h.seek hp m luck
  | @retreat m luck q _ hretreat =>
    have hget : (ps.set i (Gate.stamped.seek m luck w p).2)[i]? = some _ :=
      (getElem?_set_iff hp).mpr (.inl ⟨rfl, rfl⟩)
    obtain ⟨rfl, hshares, howns, hwaits⟩ := of_retreat? hretreat
    rw [← List.set_set]
    exact (h.seek hp m luck).move hget hshares.symm howns.symm hwaits.symm trivial
  | leave hinside => exact ⟨Gate.excludes_stamped.leave h.fits hp hinside, h.waits.leave hp⟩

/-- The number is odd while a thread is in exclusive mode. -/
theorem Fits.number_mod_two (h : Fits w ps) : w.number % 2 = ps.countP Place.owns := by
  have hstate := h.state
  have hapart := h.apart
  unfold number
  omega

theorem Fits.numbering_shift (h : Fits w ps) (hp : ps[i]? = some p)
    (hshift : Shift .stamped Toward w p w' q) : Numbering w w' := by
  cases hshift with
  | stay | attempt | enroll | retire => exact .same rfl
  | seek m luck | retreat m luck => exact h.numbering_seek hp m luck
  | leave => exact h.numbering_leave hp

/-- A thread keeps exclusive mode until it leaves. -/
theorem owns_of_shift (hshift : Shift .stamped Toward w p w' q) (howns : p.owns = true) :
    q.owns = true ∨ holds .exclusive p = true ∧ q = .out := by
  cases p with
  | delist =>
    cases hshift with
    | stay | seek | enroll | retire => exact .inl rfl
    | attempt hout => cases hout
    | retreat _ _ _ hretreat => cases hretreat
    | leave hinside => cases hinside
  | exclusive =>
    cases hshift with
    | stay | seek | enroll | retire => exact .inl rfl
    | attempt hout => cases hout
    | retreat _ _ _ hretreat => cases hretreat
    | leave => exact .inr ⟨rfl, rfl⟩
  | _ => cases howns

theorem eq_exclusive_of_holds (h : holds .exclusive p = true) : p = .exclusive := by
  cases p with
  | exclusive => rfl
  | _ => cases h

/-- The exclusive bit is cleared by a thread that leaves exclusive mode. -/
theorem Fits.cleared_iff (h : Fits w ps) (hp : ps[i]? = some p)
    (hshift : Shift .stamped Toward w p w' q) (h' : Fits w' (ps.set i q)) :
    w.isExclusive = true ∧ w'.isExclusive = false ↔
      holds .exclusive p = true ∧ Gate.stamped.outside q = true := by
  have hset := countP_set_add Place.owns hp (b := q)
  rw [← Bool.not_eq_true, isExclusive_iff_number, isExclusive_iff_number, h.number_mod_two,
    h'.number_mod_two]
  constructor
  · rintro ⟨hone, hnone⟩
    have hapart' := h'.apart
    have howns : p.owns = true := by
      by_contra hnot
      rw [if_neg hnot] at hset
      omega
    rcases owns_of_shift hshift howns with howns' | ⟨hholds, rfl⟩
    · rw [if_pos howns, if_pos howns'] at hset
      omega
    · exact ⟨hholds, rfl⟩
  · rintro ⟨hholds, hout⟩
    obtain rfl : p = .exclusive := eq_exclusive_of_holds hholds
    obtain rfl : q = .out := eq_of_beq hout
    have hapart := h.apart
    change (ps.set i .out).countP Place.owns + 1 = ps.countP Place.owns + 0 at hset
    omega

/-- The version moves by one where the exclusive bit is cleared, and nowhere else. -/
theorem Numbering.version (h : Numbering w w') :
    w'.number / 2 = (w.number / 2 +
      if w.isExclusive = true ∧ w'.isExclusive = false then 1 else 0) % 2 ^ 47 := by
  have hlt := number_lt w'
  cases h with
  | same hsame =>
    rw [isExclusive_congr hsame, if_neg (by simp), hsame]
    rw [hsame] at hlt
    omega
  | take hfree _ hnext =>
    rw [if_neg (by simp [hfree])]
    rw [← Bool.not_eq_true, isExclusive_iff_number] at hfree
    omega
  | give hheld hfree hnext =>
    rw [if_pos ⟨hheld, hfree⟩]
    rw [isExclusive_iff_number] at hheld
    omega

/-! ## In every run -/

/-- The threads in exclusive mode. -/
def writers (p : Pool Gate.stamped.Word (Client .stamped)) : Nat :=
  (places p).countP Place.owns

/-- The threads in shared mode. -/
def sharers (p : Pool Gate.stamped.Word (Client .stamped)) : Nat :=
  (places p).countP Place.shares

/-- The threads that have counted themselves as waiting, and have not taken that back. -/
def waiters (p : Pool Gate.stamped.Word (Client .stamped)) : Nat :=
  (places p).countP Place.waits

/-- How often exclusive mode was left. -/
def released (n : Nat) (turns : List (Turn (Request Stamp))) : Nat :=
  ((Gate.client .stamped).observe (Gate.passes? (holds .exclusive) Gate.stamped.outside)
    (Gate.idle .stamped n) turns).length

variable (n : Nat) (turns : List (Turn (Request Stamp)))

theorem outside_of_holds {m : Mode} (p : Place) (h : holds m p = true) :
    Gate.stamped.outside p = false := by
  cases p with
  | out => cases m <;> cases h
  | _ => rfl

theorem toward_of_attempt? {m : Mode} (h : Gate.stamped.attempt? m = some q) : Toward m q := by
  cases m <;> cases h <;> exact trivial

theorem kept_after : Gate.Kept Counts Toward (after .stamped n turns) :=
  Gate.kept_after Gate.excludes_stamped toward_of_attempt? Counts.shift counts_replicate n turns

/-- A turn moves the version by one if it leaves exclusive mode, and not otherwise. -/
theorem version_concat (turn : Turn (Request Stamp)) :
    (after .stamped n (turns ++ [turn])).shared.number / 2 =
      ((after .stamped n turns).shared.number / 2 +
        (Gate.passes? (holds .exclusive) Gate.stamped.outside (after .stamped n turns)
          turn).toList.length) % 2 ^ 47 := by
  have hkept := kept_after n turns
  have hkept' := kept_after n (turns ++ [turn])
  rw [after_concat] at hkept' ⊢
  generalize after .stamped n turns = p at hkept hkept' ⊢
  have hmoved := hkept.moved Gate.excludes_stamped toward_of_attempt? turn
  generalize hact : (Gate.client .stamped).act p turn = p' at hmoved hkept' ⊢
  cases hmoved with
  | stay =>
    rw [Gate.passes?_of_stay outside_of_holds hact]
    have hlt := number_lt p.shared
    show _ = (_ + 0) % 2 ^ 47
    omega
  | @shift c d w hc _ hshift =>
    have hfits := hkept'.inv.fits
    rw [Gate.places_put] at hfits
    have hcleared := hkept.inv.fits.cleared_iff (Gate.places_get? hc) hshift hfits
    have hversion := (hkept.inv.fits.numbering_shift (Gate.places_get? hc) hshift).version
    rw [Gate.passes?_of_shift hc hact]
    by_cases hleft : holds .exclusive c.place = true ∧ Gate.stamped.outside d.place = true
    · rw [if_pos (hcleared.mpr hleft)] at hversion
      rw [if_pos (Bool.and_eq_true_iff.mpr hleft)]
      exact hversion
    · rw [if_neg (mt hcleared.mp hleft)] at hversion
      rw [if_neg (mt Bool.and_eq_true_iff.mp hleft)]
      exact hversion

theorem version_after :
    (after .stamped n turns).shared.number / 2 = (1 + released n turns) % 2 ^ 47 := by
  induction turns using List.reverseRecOn with
  | nil =>
    have hfree := number_free
    show Stamped.number {} / 2 = (1 + 0) % 2 ^ 47
    omega
  | append_singleton turns turn ih =>
    rw [version_concat, ih, released, released, Machine.observe_concat, List.length_append,
      Nat.mod_add_mod, Nat.add_assoc]
    rfl

theorem number_after : (after .stamped n turns).shared.number =
    (1 + released n turns) % 2 ^ 47 * 2 + writers (after .stamped n turns) := by
  have hversion := version_after n turns
  have hparity : (after .stamped n turns).shared.number % 2 = writers (after .stamped n turns) :=
    (kept_after n turns).inv.fits.number_mod_two
  omega

variable {n turns}

theorem released_mono {past : List (Turn (Request Stamp))} (h : past <+: turns) :
    released n past ≤ released n turns :=
  (Machine.observe_mono _ _ _ h).length_le

/-- A stamp is taken while no thread is in exclusive mode, and is of the number in the word. -/
theorem bits_of_answered {turn : Turn (Request Stamp)} {t : Nat} {s : Stamp}
    (h : (Gate.client .stamped).event? (after .stamped n turns) turn =
      some (.answered t (.stamp (some s)))) :
    s.bits.toNat = 65536 * ((1 + released n turns) % 2 ^ 47 * 2) := by
  obtain ⟨luck, c, -, -, hbusy, -, hreply⟩ := Machine.step_of_answered h
  have hstamp : stamp? (after .stamped n turns).shared = some s :=
    ((Client.of_reply? hbusy hreply).1 _ rfl).symm
  obtain ⟨hfree, hbits⟩ := bits_of_stamp? hstamp
  have hversion := version_after n turns
  rw [← Bool.not_eq_true, isExclusive_iff_number] at hfree
  rw [hbits]
  omega

/-- What the words of a stamped lock tell after some turns, and what a stamp proves. -/
structure Tells (n : Nat) (turns : List (Turn (Request Stamp))) : Prop where
  /-- The word is the version, the exclusive bit and the count of shared holders. -/
  word : (after .stamped n turns).shared.state.toNat = (1 + released n turns) % 2 ^ 47 * 2 ^ 17 +
    (if writers (after .stamped n turns) = 0 then 0 else 2 ^ 16) + sharers (after .stamped n turns)
  alone : writers (after .stamped n turns) ≤ 1
  apart : writers (after .stamped n turns) ≠ 0 → sharers (after .stamped n turns) = 0
  room : sharers (after .stamped n turns) ≤ 65535
  /-- The threads that wait are counted, unless there are too many of them for the counter. -/
  waiting : waiters (after .stamped n turns) < 2 ^ 32 →
    (after .stamped n turns).shared.waiting.toNat = waiters (after .stamped n turns)
  /-- A stamp that was given at some moment is valid now if nobody is in exclusive mode and the
  version has come back. -/
  stamps : ∀ {before : List (Turn (Request Stamp))} {turn : Turn (Request Stamp)} {t : Nat}
    {s : Stamp}, before ++ [turn] <+: turns →
    (Gate.client .stamped).event? (after .stamped n before) turn =
      some (.answered t (.stamp (some s))) →
    ((after .stamped n turns).shared.valid s = true ↔
      writers (after .stamped n turns) = 0 ∧ ∃ k, released n turns = released n before + k * 2 ^ 47)
  /-- A thread that checks a stamp is told whether the stamp is valid at that moment. -/
  validates : ∀ {turn : Turn (Request Stamp)} {t : Nat} {b : Bool},
    (Gate.client .stamped).event? (after .stamped n turns) turn = some (.answered t (.valid b)) →
    ∃ s, Machine.lastCall? ((Gate.client .stamped).history (Gate.idle .stamped n) turns) t =
      some (.validate s) ∧ b = (after .stamped n turns).shared.valid s

/-- Whatever the threads do with the lock, the word tells how often exclusive mode was left and who
holds the lock, and nothing that happens in shared mode outdates a stamp. -/
theorem tells_after (n : Nat) (turns : List (Turn (Request Stamp))) : Tells n turns := by
  have hcounts := (kept_after n turns).inv
  have hstate : (after .stamped n turns).shared.state.toNat % 131072 =
      sharers (after .stamped n turns) + 65536 * writers (after .stamped n turns) :=
    hcounts.fits.state
  have hapart : writers (after .stamped n turns) = 0 ∧ sharers (after .stamped n turns) ≤ 65535 ∨
      writers (after .stamped n turns) = 1 ∧ sharers (after .stamped n turns) = 0 :=
    hcounts.fits.apart
  have hnumber := number_after n turns
  have hword : (after .stamped n turns).shared.number =
      (after .stamped n turns).shared.state.toNat / 65536 := rfl
  constructor
  · split <;> omega
  · omega
  · omega
  · omega
  · intro hfew
    have hwaits : (after .stamped n turns).shared.waiting.toNat =
        waiters (after .stamped n turns) % 2 ^ 32 := hcounts.waits
    omega
  · intro before turn t s hbefore hevent
    have hmono := released_mono ((List.prefix_append before [turn]).trans hbefore) (n := n)
    rw [valid_iff (bits_of_answered hevent), hnumber]
    constructor
    · intro hsame
      exact ⟨by omega, (released n turns - released n before) / 2 ^ 47, by omega⟩
    · rintro ⟨hnobody, k, hk⟩
      rw [hnobody, hk]
      omega
  · intro turn t b hevent
    obtain ⟨luck, c, -, hc, hbusy, -, hreply⟩ := Machine.step_of_answered hevent
    obtain ⟨s, hvalidating, hb⟩ := (Client.of_reply? hbusy hreply).2 b rfl
    exact ⟨s, Gate.lastCall?_of_validating hc hvalidating, hb⟩

/-- Thread 1 comes and goes, and thread 0 checks the stamp of the unused lock: shared mode has left
it valid, exclusive mode has not. -/
example : ([Mode.shared, .exclusive].map fun m =>
    (after .stamped 2 (.call 1 (.enter m) :: List.replicate 3 (.step 1 true) ++
      [.call 1 .leave, .step 1 true, .call 0 (.validate ⟨0x20000⟩), .step 0 true])).threads[0]?.bind
        Client.reply?) = [some (.valid true), some (.valid false)] := by
  decide +kernel

end Growable.Lock.Stamped
