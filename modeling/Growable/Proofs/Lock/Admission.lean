import Growable.Proofs.Lock.LayoutRuns
import Growable.Proofs.Lock.Solo
import Growable.Proofs.Lock.StampedRuns

/-!
# Admission

A gate that nobody is inside of keeps nobody out for good. Where threads are on their way, one of
them gets in by steps of its own: one that is all but in, or else one that waits for exclusive mode,
or else any, since only threads that wait for exclusive mode hold others back. And where no thread is
on its way, whoever sets out gets in.
-/

namespace Growable.Lock

/-- By steps of its own a thread gets from this word and place into the mode. -/
def Gate.Enters (G : Gate) (m : Mode) (a : G.Word × G.Place) : Prop :=
  ∃ n b, G.Seeks m n a b

/-- A gate that nobody is inside of lets threads in. -/
structure Gate.Admits (G : Gate) (Fits : G.Word → List G.Place → Prop)
    (Toward : Mode → G.Place → Prop) : Prop where
  /-- A thread on its way is not inside. -/
  waits : ∀ {p : G.Place} {m : Mode}, Toward m p → G.inside p = false
  /-- Of the threads on their way one gets in. -/
  way : ∀ {w : G.Word} {ps : List G.Place}, Fits w ps → (∀ p ∈ ps, ∃ m, Toward m p) →
    (∃ p ∈ ps, G.outside p = false) →
    ∃ p ∈ ps, G.outside p = false ∧ ∀ m, Toward m p → G.Enters m (w, p)
  /-- With every thread outside, each may get in. -/
  out : ∀ {w : G.Word} {ps : List G.Place}, Fits w ps → (∀ p ∈ ps, G.outside p = true) →
    ∀ p ∈ ps, ∀ m, G.Enters m (w, p)

section

variable {G : Gate} {m : Mode} {w v : G.Word} {p q : G.Place}

/-- A step further on the way. -/
theorem Gate.Enters.next (hseek : G.seek m true w p = (v, q))
    (h : G.holds m q = false → G.Enters m (v, q)) : G.Enters m (w, p) := by
  cases hholds : G.holds m q with
  | true => exact ⟨1, _, .last hseek hholds⟩
  | false =>
    obtain ⟨n, b, hseeks⟩ := h hholds
    exact ⟨n + 1, b, .more hseek hholds hseeks⟩

theorem Gate.Enters.last (hseek : G.seek m true w p = (v, q)) (hholds : G.holds m q = true) :
    G.Enters m (w, p) :=
  ⟨1, _, .last hseek hholds⟩

end

/-- More may be kept of the word and the places than what keeps threads apart. -/
theorem Gate.Excludes.refine {G : Gate} {Fits Counts : G.Word → List G.Place → Prop}
    {Toward : Mode → G.Place → Prop} (hG : G.Excludes Fits Toward)
    (hfits : ∀ {w ps}, Counts w ps → Fits w ps) (hidle : ∀ n, Counts G.free (.replicate n G.fresh))
    (hseek : ∀ {w : G.Word} {ps : List G.Place} {i : Nat} {p : G.Place} (m : Mode) (luck : Bool),
      Counts w ps → ps[i]? = some p → Toward m p →
      Counts (G.seek m luck w p).1 (ps.set i (G.seek m luck w p).2))
    (hleave : ∀ {w : G.Word} {ps : List G.Place} {i : Nat} {p : G.Place}, Counts w ps →
      ps[i]? = some p → G.inside p = true → Counts (G.leave w p).1 (ps.set i (G.leave w p).2)) :
    G.Excludes Counts Toward where
  idle := hidle
  seek := hseek
  leave := hleave
  apart h := hG.apart (hfits h)
  fresh := hG.fresh
  outside := hG.outside
  toward := hG.toward
  left := hG.left

/-- A gate that is entered through another: each step at the one is a step at the other, until that
is entered. -/
theorem Gate.Enters.through {G H : Gate} {m : Mode} {a : G.Word × G.Place}
    (way : G.Word × G.Place → H.Word × H.Place) (granted : G.Word → H.Word × H.Place)
    (hseek : ∀ a, H.seek m true (way a).1 (way a).2 =
      if G.holds m (G.seek m true a.1 a.2).2 then granted (G.seek m true a.1 a.2).1
      else way (G.seek m true a.1 a.2))
    (hgranted : ∀ w, H.holds m (granted w).2 = false → H.Enters m (granted w))
    (h : G.Enters m a) : H.Enters m (way a) := by
  obtain ⟨n, b, hseeks⟩ := h
  induction hseeks with
  | @last n w w' p p' hbase hholds =>
    refine .next (v := (granted w').1) (q := (granted w').2) ?_ (hgranted w')
    rw [hseek (w, p), hbase, if_pos hholds]
  | @more n w w' p p' b hbase hholds _ ih =>
    refine .next (v := (way (w', p')).1) (q := (way (w', p')).2) ?_ fun _ => ih
    rw [hseek (w, p), hbase, if_neg (by simp [hholds])]

theorem countP_eq_zero_of_all {τ : Type} {f : τ → Bool} {l : List τ}
    (h : ∀ a ∈ l, f a = false) : l.countP f = 0 := by
  rw [List.countP_eq_zero]
  intro a ha
  rw [h a ha]
  exact Bool.false_ne_true

/-! ## The stamped lock -/

namespace Stamped

variable {w : Stamped} {ps : List Place} {p : Place}

theorem Fits.free_of_all (h : Fits w ps) (hshares : ∀ p ∈ ps, p.shares = false)
    (howns : ∀ p ∈ ps, p.owns = false) : w.state.toNat % 131072 = 0 := by
  have hstate := h.state
  rw [countP_eq_zero_of_all hshares, countP_eq_zero_of_all howns] at hstate
  exact hstate

theorem Waits.eq_zero_of_all {n : UInt32} (h : Waits n ps) (hwaits : ∀ p ∈ ps, p.waits = false) :
    n = 0 := by
  have hcount : n.toNat = ps.countP Place.waits % 2 ^ 32 := h
  rw [countP_eq_zero_of_all hwaits] at hcount
  exact UInt32.toNat_inj.mp hcount

theorem enters_delist (w : Stamped) : Gate.stamped.Enters .exclusive (w, .delist) :=
  .last rfl rfl

theorem enters_queued (hfree : w.state.toNat % 131072 = 0) :
    Gate.stamped.Enters .exclusive (w, .queued) := by
  have hqueued : seek .exclusive true w .queued = (w, .queuedClaim w.state) := by
    simp [seek, (isFree_iff w).mpr hfree]
  have hclaim : seek .exclusive true w (.queuedClaim w.state) =
      ({ w with state := w.state + exclusiveBit }, .delist) := by
    simp [seek]
  exact .next hqueued fun _ => .next hclaim fun _ => enters_delist _

theorem enters_enlist (hfree : w.state.toNat % 131072 = 0) :
    Gate.stamped.Enters .exclusive (w, .enlist) := by
  rcases w with ⟨state, waiting⟩
  exact .next rfl fun _ => enters_queued (w := ⟨state, waiting + 1⟩) hfree

/-- A lock that nobody holds is open to every thread on its way into exclusive mode. -/
theorem enters_exclusive (hfree : w.state.toNat % 131072 = 0) (hp : Toward .exclusive p) :
    Gate.stamped.Enters .exclusive (w, p) := by
  have hclaim : Gate.stamped.Enters .exclusive (w, .claim w.state) := by
    refine .last (v := { w with state := w.state + exclusiveBit }) (q := .exclusive) ?_ rfl
    simp [seek]
  cases p with
  | out =>
    refine .next (v := w) (q := .claim w.state) ?_ fun _ => hclaim
    simp [seek, (isFree_iff w).mpr hfree]
  | claim seen =>
    by_cases hseen : w.state = seen
    · rw [← hseen]
      exact hclaim
    · refine .next (v := w) (q := .enlist) ?_ fun _ => enters_enlist hfree
      simp [seek, hseen]
  | enlist => exact enters_enlist hfree
  | queued => exact enters_queued hfree
  | queuedClaim seen =>
    by_cases hseen : w.state = seen
    · refine .next (v := { w with state := w.state + exclusiveBit }) (q := .delist) ?_
        fun _ => enters_delist _
      simp [seek, hseen]
    · refine .next (v := w) (q := .queued) ?_ fun _ => enters_queued hfree
      simp [seek, hseen]
  | delist => exact enters_delist w
  | _ => cases hp

/-- A lock that nobody holds or waits for is open to every thread on its way into shared mode. -/
theorem Quiet.enters_shared (h : w.Quiet) (hp : Toward .shared p) :
    Gate.stamped.Enters .shared (w, p) := by
  obtain ⟨hout, hpeek, hjoin⟩ := h.seek_shared
  have hjoins : Gate.stamped.Enters .shared (w, .join w.state) := .last hjoin rfl
  have houts : Gate.stamped.Enters .shared (w, .out) :=
    .next hout fun _ => .next hpeek fun _ => hjoins
  cases p with
  | out => exact houts
  | peek => exact .next hpeek fun _ => hjoins
  | join seen =>
    by_cases hseen : w.state = seen
    · rw [← hseen]
      exact hjoins
    · refine .next (v := w) (q := .out) ?_ fun _ => houts
      simp [seek, hseen]
  | _ => cases hp

theorem Quiet.enters (h : w.Quiet) {m : Mode} (hp : Toward m p) :
    Gate.stamped.Enters m (w, p) := by
  cases m with
  | shared => exact h.enters_shared hp
  | exclusive => exact enters_exclusive h.state hp

/-- The thread is on its way into exclusive mode and has begun. -/
def Place.claims : Place → Bool
  | .claim _ | .enlist | .queued | .queuedClaim _ | .delist => true
  | _ => false

theorem Place.toward_of_claims (h : p.claims = true) : Toward .exclusive p ∧ ¬ Toward .shared p := by
  cases p with
  | claim | enlist | queued | queuedClaim | delist => exact ⟨trivial, id⟩
  | _ => cases h

theorem Place.waits_of_not_claims (h : p.claims = false) : p.waits = false := by
  cases p with
  | queued | queuedClaim | delist => cases h
  | _ => rfl

end Stamped

theorem Gate.counts_stamped : Gate.stamped.Excludes Stamped.Counts Stamped.Toward :=
  Gate.excludes_stamped.refine (fun h => h.fits) Stamped.counts_replicate
    (fun m luck h hp _ => h.seek hp m luck)
    fun h hp hinside => ⟨Gate.excludes_stamped.leave h.fits hp hinside, h.waits.leave hp⟩

theorem Gate.admits_stamped : Gate.stamped.Admits Stamped.Counts Stamped.Toward where
  waits := by
    intro p m hp
    cases p with
    | shared | exclusive => cases m <;> cases hp
    | _ => rfl
  way := by
    rintro w ps h hall ⟨p, hp, hout⟩
    by_cases hdelist : Stamped.Place.delist ∈ ps
    · -- granted, and only the count of waiting threads is to be put right
      refine ⟨.delist, hdelist, rfl, ?_⟩
      intro m hm
      cases m with
      | shared => cases hm
      | exclusive => exact Stamped.enters_delist w
    · have hfree : w.state.toNat % 131072 = 0 := by
        apply h.fits.free_of_all
        · intro q hq
          obtain ⟨m, hm⟩ := hall q hq
          cases q with
          | shared => cases m <;> cases hm
          | _ => rfl
        · intro q hq
          obtain ⟨m, hm⟩ := hall q hq
          cases q with
          | delist => exact absurd hq hdelist
          | exclusive => cases m <;> cases hm
          | _ => rfl
      by_cases hclaims : ∃ q ∈ ps, q.claims = true
      · obtain ⟨q, hq, hclaim⟩ := hclaims
        obtain ⟨htoward, hnot⟩ := Stamped.Place.toward_of_claims hclaim
        refine ⟨q, hq, ?_, ?_⟩
        · cases q with
          | out => cases hclaim
          | _ => rfl
        · intro m hm
          cases m with
          | shared => exact absurd hm hnot
          | exclusive => exact Stamped.enters_exclusive hfree htoward
      · -- nobody waits for exclusive mode, so nobody is held back
        have hquiet : w.Quiet := by
          refine ⟨hfree, h.waits.eq_zero_of_all ?_⟩
          intro q hq
          apply Stamped.Place.waits_of_not_claims
          rw [Bool.eq_false_iff]
          intro hclaim
          exact hclaims ⟨q, hq, hclaim⟩
        exact ⟨p, hp, hout, fun m hm => hquiet.enters hm⟩
  out := by
    intro w ps h hall p hp m
    have hout (q : Stamped.Place) (hq : q ∈ ps) : q = .out := eq_of_beq (hall q hq)
    have hquiet : w.Quiet :=
      Stamped.quiet_of_out h.fits h.waits fun hget => hout _ (List.mem_of_getElem? hget)
    exact hquiet.enters (Gate.excludes_stamped.outside m (hall p hp))

/-! ## The layout lock -/

namespace Layout

variable {w : Layout} {ps : List Place} {p : Place}

theorem Fits.free_of_all (h : Fits w ps) (hshares : ∀ p ∈ ps, p.shares = false)
    (howns : ∀ p ∈ ps, p.owns = false) : w.state = 0 := by
  have hstate := h.state
  rw [countP_eq_zero_of_all hshares, countP_eq_zero_of_all howns] at hstate
  rcases hstate with ⟨-, hzero, -⟩ | ⟨hone, -⟩
  · exact UInt64.toNat_inj.mp hzero
  · cases hone

theorem enters_retract (w : Layout) : Gate.layout.Enters .exclusive (w, .retract) :=
  .last rfl rfl

theorem enters_claim (hfree : w.state = 0) : Gate.layout.Enters .exclusive (w, .claim) := by
  have hclaim : seek .exclusive true w .claim = ({ w with state := changeBit }, .retract) := by
    simp [seek, hfree]
  exact .next hclaim fun _ => enters_retract _

theorem enters_change (hfree : w.state = 0) (hp : Toward .exclusive p) :
    Gate.layout.Enters .exclusive (w, p) := by
  rcases w with ⟨state, pending⟩
  cases p with
  | out => exact .next rfl fun _ => enters_claim (w := ⟨state, pending + 1⟩) hfree
  | claim => exact enters_claim hfree
  | retract => exact enters_retract _
  | _ => cases hp

/-- A lock that nobody holds and where no change is announced is open to every access. -/
theorem enters_access (hfree : w.state = 0) (hpending : w.pending = 0) (hp : Toward .shared p) :
    Gate.layout.Enters .shared (w, p) := by
  obtain rfl : w = {} := by
    rcases w with ⟨state, pending⟩
    obtain rfl : state = 0 := hfree
    obtain rfl : pending = 0 := hpending
    rfl
  obtain ⟨hout, hpeek, hjoin⟩ := seek_free_shared
  have hjoins : Gate.layout.Enters .shared (({} : Layout), .join 0) := .last hjoin rfl
  have houts : Gate.layout.Enters .shared (({} : Layout), .out) :=
    .next hout fun _ => .next hpeek fun _ => hjoins
  cases p with
  | out => exact houts
  | peek => exact .next hpeek fun _ => hjoins
  | join seen =>
    by_cases hseen : (0 : UInt64) = seen
    · rw [← hseen]
      exact hjoins
    · refine .next (v := ({} : Layout)) (q := .out) ?_ fun _ => houts
      simp [seek, hseen]
  | _ => cases hp

end Layout

theorem Gate.counts_layout : Gate.layout.Excludes Layout.Counts Layout.Toward :=
  Gate.excludes_layout.refine (fun h => h.fits) Layout.counts_replicate
    (fun m luck h hp _ => h.steps hp (Layout.steps_seek m luck _ _))
    fun h hp _ => h.steps hp (Layout.steps_leave _ _)

theorem Gate.admits_layout : Gate.layout.Admits Layout.Counts Layout.Toward where
  waits := by
    intro p m hp
    cases p with
    | access | change => cases m <;> cases hp
    | _ => rfl
  way := by
    rintro w ps h hall ⟨p, hp, hout⟩
    by_cases hretract : Layout.Place.retract ∈ ps
    · -- granted, and only the announcement is to be taken back
      refine ⟨.retract, hretract, rfl, ?_⟩
      intro m hm
      cases m with
      | shared => cases hm
      | exclusive => exact Layout.enters_retract w
    · have hfree : w.state = 0 := by
        apply h.fits.free_of_all
        · intro q hq
          obtain ⟨m, hm⟩ := hall q hq
          cases q with
          | access => cases m <;> cases hm
          | _ => rfl
        · intro q hq
          obtain ⟨m, hm⟩ := hall q hq
          cases q with
          | retract => exact absurd hq hretract
          | change => cases m <;> cases hm
          | _ => rfl
      by_cases hclaim : Layout.Place.claim ∈ ps
      · refine ⟨.claim, hclaim, rfl, ?_⟩
        intro m hm
        cases m with
        | shared => cases hm
        | exclusive => exact Layout.enters_claim hfree
      · -- no change is announced, so nobody is held back
        have hpending : w.pending = 0 := by
          rw [h.pending]
          apply countP_eq_zero_of_all
          intro q hq
          cases q with
          | claim => exact absurd hq hclaim
          | retract => exact absurd hq hretract
          | _ => rfl
        refine ⟨p, hp, hout, ?_⟩
        intro m hm
        cases m with
        | shared => exact Layout.enters_access hfree hpending hm
        | exclusive => exact Layout.enters_change hfree hm
  out := by
    intro w ps h hall p hp m
    have hout (q : Layout.Place) (hq : q ∈ ps) : q = .out := eq_of_beq (hall q hq)
    have hnone (f : Layout.Place → Bool) (hf : f .out = false) (q : Layout.Place) (hq : q ∈ ps) :
        f q = false := by
      rw [hout q hq, hf]
    have hfree : w.state = 0 :=
      h.fits.free_of_all (hnone Layout.Place.shares rfl) (hnone Layout.Place.owns rfl)
    have hpending : w.pending = 0 :=
      h.pending.trans (countP_eq_zero_of_all (hnone Layout.Place.announces rfl))
    have htoward : Layout.Toward m p := Gate.excludes_layout.outside m (hall p hp)
    cases m with
    | shared => exact Layout.enters_access hfree hpending htoward
    | exclusive => exact Layout.enters_change hfree htoward

end Growable.Lock
