import Growable.Proofs.Lock.Admission
import Growable.Proofs.Lock.Flagged

/-!
# Admission by flags

The layout lock with flags keeps nobody out for good either. A change waits for flags at access and
for the base, and an access for the base alone. Only a thread inside, or one that is about to release
the base, keeps its flag at access, so once nobody is inside the flags hold no change back, and
admission is a matter of the base, which is a stamped lock.
-/

namespace Growable.Lock

namespace Flagged

/-! ## Who waits for the base -/

/-- The words count the threads that hold the base and those that wait for it. -/
structure Counts (w : Flagged) (ps : List Place) : Prop where
  fits : Fits w ps
  waits : Stamped.Waits w.base.waiting (ps.map Place.base)

/-- What a step does at the base. -/
inductive AtBase (w : Flagged) (p : Place) (w' : Flagged) (q : Place) : Prop
  | stay : w'.base = w.base → q.base = p.base → AtBase w p w' q
  | seek (m : Mode) (luck : Bool) : w'.base = (Stamped.seek m luck w.base p.base).1 →
    q.base = (Stamped.seek m luck w.base p.base).2 → AtBase w p w' q
  | leave : w'.base = (Stamped.leave w.base p.base).1 →
    q.base = (Stamped.leave w.base p.base).2 → AtBase w p w' q

variable {w w' : Flagged} {ps : List Place} {t : Nat} {p q : Place}

theorem atBase_enroll (w : Flagged) (p : Place) : AtBase w p (enroll w p).1 (enroll w p).2 := by
  cases p with
  | out index? =>
    cases index? with
    | none =>
      simp only [enroll]
      split <;> exact .stay rfl rfl
    | some i => exact .stay rfl rfl
  | _ => exact .stay rfl rfl

theorem atBase_seek (m : Mode) (luck : Bool) (w : Flagged) (p : Place) :
    AtBase w p (seek m luck w p).1 (seek m luck w p).2 := by
  cases p with
  | out index? =>
    cases m with
    | shared =>
      cases index? with
      | none => exact atBase_enroll w (.out none)
      | some i =>
        simp only [seek, begin]
        split
        · split <;> exact .stay rfl rfl
        · exact .stay rfl rfl
    | exclusive => exact .stay rfl rfl
  | draw => exact atBase_enroll w .draw
  | raise i =>
    simp only [seek]
    split <;> exact .stay rfl rfl
  | recover i b =>
    simp only [seek]
    split
    · rename_i hshared
      exact .seek .shared luck rfl hshared.symm
    · exact .seek .shared luck rfl rfl
  | release i => exact .leave rfl rfl
  | borrow i b => exact .seek .shared luck rfl rfl
  | claim index? b =>
    simp only [seek]
    split
    · rename_i hexclusive
      exact .seek .exclusive luck rfl hexclusive.symm
    · exact .seek .exclusive luck rfl rfl
  | ask index? =>
    simp only [seek]
    split <;> exact .stay rfl rfl
  | block index? limit b =>
    simp only [seek]
    split
    · exact .stay rfl rfl
    · split <;> exact .stay rfl rfl
  | turn index? limit i =>
    have hafter : (afterTurn index? limit i).base = .exclusive := by
      unfold afterTurn
      split <;> rfl
    simp only [seek]
    split
    · exact .stay rfl hafter
    · exact .stay rfl hafter
    · exact .stay rfl rfl
  | _ => exact .stay rfl rfl

theorem atBase_leave (w : Flagged) (hinside : Gate.flagged.inside p = true) :
    AtBase w p (leave w p).1 (leave w p).2 := by
  cases p with
  | access i => exact .stay rfl rfl
  | borrow i b =>
    cases b with
    | shared => exact .leave rfl rfl
    | _ => cases hinside
  | change index? => exact .leave rfl rfl
  | _ => cases hinside

theorem AtBase.waits (hbase : AtBase w p w' q) (hp : ps[t]? = some p)
    (h : Stamped.Waits w.base.waiting (ps.map Place.base)) :
    Stamped.Waits w'.base.waiting ((ps.set t q).map Place.base) := by
  have hget := Fits.base_get? hp
  rw [List.map_set]
  cases hbase with
  | stay hword hplace =>
    rw [hword]
    exact h.move hget (congrArg Stamped.Place.waits hplace)
  | seek m luck hword hplace =>
    rw [hword, hplace]
    exact h.seek hget m luck
  | leave hword hplace =>
    rw [hword, hplace]
    exact h.leave hget

theorem counts_replicate (n : Nat) : Counts {} (.replicate n (.out none)) := by
  refine ⟨fits_replicate n, ?_⟩
  rw [List.map_replicate]
  exact Stamped.waits_replicate n

/-- A thread that gets the base on its way gets on with it. -/
theorem enters_of_base {m : Mode} {b : Stamped.Place} (way : Stamped.Place → Place) (granted : Place)
    (hseek : ∀ (v : Flagged) (b : Stamped.Place), seek m true v (way b) =
      ({ v with base := (Stamped.seek m true v.base b).1 },
        if Stamped.holds m (Stamped.seek m true v.base b).2 then granted
        else way (Stamped.seek m true v.base b).2))
    (hgranted : ∀ s : Stamped, holds m granted = false →
      Gate.flagged.Enters m ({ w with base := s }, granted))
    (h : Gate.stamped.Enters m (w.base, b)) : Gate.flagged.Enters m (w, way b) := by
  refine Gate.Enters.through (H := Gate.flagged) (fun a => ({ w with base := a.1 }, way a.2))
    (fun s => ({ w with base := s }, granted)) ?_ hgranted h
  rintro ⟨s, b⟩
  refine (hseek { w with base := s } b).trans ?_
  dsimp only
  split <;> rfl

/-! ## Changes -/

/-- No flag holds a change back. -/
def Lowered (w : Flagged) : Prop := ∀ i, w.flag i ≠ .access

theorem Lowered.setFlag (h : Lowered w) (i : Nat) {f : Flag} (hf : f ≠ .access) :
    Lowered (w.setFlag i f) := by
  intro j
  by_cases hij : i = j
  · subst hij
    by_cases hi : i < Roster.flagged
    · rw [flag_setFlag_self f hi]
      exact hf
    · rw [flag_of_le (Nat.le_of_not_lt hi)]
      decide
  · rw [flag_setFlag_of_ne f hij]
    exact h j

variable (index? : Option Nat) (limit : Nat)

/-- A change turns the rest of a block over, if it gets on from the next block. -/
theorem enters_turn (i : Nat) (hw : Lowered w)
    (hnext : ∀ {v : Flagged}, Lowered v →
      Gate.flagged.Enters .exclusive (v, .block index? limit (i / blockSize + 1))) :
    Gate.flagged.Enters .exclusive (w, .turn index? limit i) := by
  induction hn : blockSize - 1 - i % blockSize using Nat.strongRecOn generalizing i w with
  | ind n ih =>
    subst hn
    have hafter : ∀ {v : Flagged}, Lowered v →
        Gate.flagged.Enters .exclusive (v, afterTurn index? limit i) := by
      intro v hv
      unfold afterTurn
      split
      · exact hnext hv
      · rename_i hsame
        have hdiv : (i + 1) / blockSize = i / blockSize := by
          simp only [blockSize] at hsame ⊢
          omega
        refine ih _ ?_ (i + 1) hv (hdiv ▸ hnext) rfl
        simp only [blockSize] at hsame ⊢
        omega
    cases hflag : w.flag i with
    | inactive =>
      refine .next (v := w.setFlag i .change) ?_ fun _ => hafter (hw.setFlag i (by decide))
      simp [seek, hflag]
    | change =>
      refine .next (v := w) ?_ fun _ => hafter hw
      simp [seek, hflag]
    | access => exact absurd hflag (hw i)

theorem enters_block (b : Nat) (hw : Lowered w) :
    Gate.flagged.Enters .exclusive (w, .block index? limit b) := by
  induction hn : 32 - b using Nat.strongRecOn generalizing b w with
  | ind n ih =>
    subst hn
    by_cases hend : 32 ≤ b ∨ limit ≤ b * blockSize
    · refine .last (v := w) (q := .change index?) ?_ rfl
      simp [seek, hend]
    · have hnext : ∀ {v : Flagged}, Lowered v →
          Gate.flagged.Enters .exclusive (v, .block index? limit (b + 1)) :=
        fun hv => ih _ (by omega) (b + 1) hv rfl
      by_cases hblock : w.hasBlock b = true
      · have hdiv : b * blockSize / blockSize = b := Nat.mul_div_cancel b (by decide)
        refine .next (v := w) (q := .turn index? limit (b * blockSize)) ?_
          fun _ => enters_turn index? limit _ hw (hdiv.symm ▸ hnext)
        simp [seek, hend, hblock]
      · refine .next (v := w) (q := .block index? limit (b + 1)) ?_ fun _ => hnext hw
        simp [seek, hend, hblock]

theorem enters_ask (hw : Lowered w) : Gate.flagged.Enters .exclusive (w, .ask index?) := by
  have hw' : Lowered { w with needToRecover := false } := hw
  cases hneed : w.needToRecover with
  | true =>
    refine .next (v := { w with needToRecover := false }) (q := .bound index?) ?_
      fun _ => .next rfl fun _ => enters_block index? _ 0 hw'
    simp [seek, hneed]
  | false =>
    refine .last (v := { w with needToRecover := false }) (q := .change index?) ?_ rfl
    simp [seek, hneed]

/-- A thread that gets the base exclusively gets its change. -/
theorem enters_claim {b : Stamped.Place} (hw : Lowered w)
    (h : Gate.stamped.Enters .exclusive (w.base, b)) :
    Gate.flagged.Enters .exclusive (w, .claim index? b) := by
  refine enters_of_base (.claim index?) (.ask index?) ?_
    (fun s _ => enters_ask (w := { w with base := s }) index? hw) h
  intro v b
  cases hq : Stamped.seek .exclusive true v.base b with
  | mk s q => cases q <;> simp [seek, hq, Stamped.holds]

/-- A base that nobody holds is open to every change. -/
theorem enters_change (hw : Lowered w) (hfree : w.base.state.toNat % 131072 = 0)
    (hp : Toward .exclusive p) : Gate.flagged.Enters .exclusive (w, p) := by
  cases p with
  | out index? =>
    exact .next rfl fun _ => enters_claim index? hw (Stamped.enters_exclusive hfree trivial)
  | claim index? b => exact enters_claim index? hw (Stamped.enters_exclusive hfree hp)
  | ask index? => exact enters_ask index? hw
  | bound index? => exact .next rfl fun _ => enters_block index? _ 0 hw
  | block index? limit b => exact enters_block index? limit b hw
  | turn index? limit i =>
    exact enters_turn index? limit i hw fun hv => enters_block index? limit _ hv
  | _ => cases hp

/-! ## Accesses -/

variable (i : Nat)

theorem enters_release (w : Flagged) : Gate.flagged.Enters .shared (w, .release i) :=
  .last rfl rfl

theorem enters_announce (w : Flagged) : Gate.flagged.Enters .shared (w, .announce i) :=
  .next rfl fun _ => enters_release i _

theorem enters_mark (w : Flagged) : Gate.flagged.Enters .shared (w, .mark i) :=
  .next rfl fun _ => enters_announce i _

/-- A thread that gets the base in shared mode sets its flag. -/
theorem enters_recover {b : Stamped.Place} (h : Gate.stamped.Enters .shared (w.base, b)) :
    Gate.flagged.Enters .shared (w, .recover i b) := by
  refine enters_of_base (.recover i) (.mark i) ?_ (fun _ _ => enters_mark i _) h
  intro v b
  cases hq : Stamped.seek .shared true v.base b with
  | mk s q => cases q <;> simp [seek, hq, Stamped.holds]

/-- A thread without a flag is in access once it has the base in shared mode. -/
theorem enters_borrow {b : Stamped.Place} (h : Gate.stamped.Enters .shared (w.base, b)) :
    Gate.flagged.Enters .shared (w, .borrow i b) := by
  refine enters_of_base (.borrow i) (.borrow i .shared) ?_ (fun _ hnot => nomatch hnot) h
  intro v b
  cases hq : Stamped.seek .shared true v.base b with
  | mk s q => cases q <;> simp [seek, hq, Stamped.holds]

theorem enters_raise (hw : Lowered w) (hbase : w.base.Quiet) :
    Gate.flagged.Enters .shared (w, .raise i) := by
  cases hflag : w.flag i with
  | inactive =>
    refine .last (v := w.setFlag i .access) (q := .access i) ?_ rfl
    simp [seek, hflag]
  | change =>
    refine .next (v := w) (q := .recover i .out) ?_
      fun _ => enters_recover i (hbase.enters_shared (p := .out) trivial)
    simp [seek, hflag]
  | access => exact absurd hflag (hw i)

theorem enters_install (hw : Lowered w) (hbase : w.base.Quiet) :
    Gate.flagged.Enters .shared (w, .install i) :=
  .next rfl fun _ =>
    enters_raise (w := { w with blocks := w.blocks.setIfInBounds (i / blockSize) true }) i hw hbase

theorem enters_begin (hw : Lowered w) (hbase : w.base.Quiet) :
    Gate.flagged.Enters .shared (w, .out (some i)) := by
  by_cases hi : i < Roster.flagged
  · by_cases hblock : w.hasBlock (i / blockSize) = true
    · refine .next (v := w) (q := .raise i) ?_ fun _ => enters_raise i hw hbase
      simp [seek, begin, hi, hblock]
    · refine .next (v := w) (q := .install i) ?_ fun _ => enters_install i hw hbase
      simp [seek, begin, hi, hblock]
  · refine .next (v := w) (q := .borrow i .out) ?_
      fun _ => enters_borrow i (hbase.enters_shared (p := .out) trivial)
    simp [seek, begin, hi]

theorem enters_draw (hw : Lowered w) (hbase : w.base.Quiet) :
    Gate.flagged.Enters .shared (w, .draw) :=
  .next rfl fun _ => enters_begin (w := { w with roster := w.roster.draw.1 }) _ hw hbase

omit i in
/-- A base that nobody holds or waits for is open to every access. -/
theorem enters_access (hw : Lowered w) (hbase : w.base.Quiet) (hp : Toward .shared p) :
    Gate.flagged.Enters .shared (w, p) := by
  cases p with
  | out index? =>
    cases index? with
    | some i => exact enters_begin i hw hbase
    | none =>
      cases hmin : w.roster.free.min? with
      | some i =>
        let r : Roster := { w.roster with free := w.roster.free.erase i }
        refine .next (v := { w with roster := r }) (q := .out (some i)) ?_
          fun _ => enters_begin (w := { w with roster := r }) i hw hbase
        simp [seek, enroll, Roster.scan, hmin, r]
      | none =>
        refine .next (v := w) (q := .draw) ?_ fun _ => enters_draw hw hbase
        simp [seek, enroll, Roster.scan, hmin]
  | draw => exact enters_draw hw hbase
  | install i => exact enters_install i hw hbase
  | raise i => exact enters_raise i hw hbase
  | recover i b => exact enters_recover i (hbase.enters_shared hp)
  | mark i => exact enters_mark i w
  | announce i => exact enters_announce i w
  | release i => exact enters_release i w
  | borrow i b => exact enters_borrow i (hbase.enters_shared hp)
  | _ => cases hp

omit i in
theorem enters (hw : Lowered w) (hbase : w.base.Quiet) {m : Mode} (hp : Toward m p) :
    Gate.flagged.Enters m (w, p) := by
  cases m with
  | shared => exact enters_access hw hbase hp
  | exclusive => exact enters_change hw hbase.state hp

/-! ## Nobody is inside -/

/-- Only a thread in access, or one that is about to release the base, keeps its flag at access. -/
theorem Fits.lowered (h : Fits w ps) (hnone : ∀ p ∈ ps, p.raised? = none) : Lowered w := by
  intro i hi
  obtain ⟨t, p, hp, hraised⟩ := h.minded.held hi
  rw [hnone p (List.mem_of_getElem? hp)] at hraised
  cases hraised

theorem Place.raised?_of_toward {m : Mode} (hp : Toward m p) (hshares : p.base.shares = false) :
    p.raised? = none := by
  cases p with
  | announce | release => cases hshares
  | access => cases m <;> cases hp
  | _ => rfl

/-- A thread that holds the base in shared mode sets its flag. -/
theorem enters_of_shares {m : Mode} (hp : Toward m p) (hshares : p.base.shares = true) :
    Gate.flagged.Enters m (w, p) := by
  cases p with
  | mark i =>
    cases m with
    | shared => exact enters_mark i w
    | exclusive => cases hp
  | announce i =>
    cases m with
    | shared => exact enters_announce i w
    | exclusive => cases hp
  | release i =>
    cases m with
    | shared => exact enters_release i w
    | exclusive => cases hp
  | recover i b | borrow i b | claim index? b =>
    cases b with
    | shared => cases m <;> cases hp
    | _ => cases hshares
  | _ => cases hshares

/-- A thread that holds the base exclusively gets its change, unless flags hold it back. -/
theorem enters_of_owns {m : Mode} (hw : Lowered w) (hp : Toward m p) (howns : p.base.owns = true) :
    Gate.flagged.Enters m (w, p) := by
  cases p with
  | claim index? b =>
    cases m with
    | shared => cases hp
    | exclusive =>
      cases b with
      | delist => exact enters_claim index? hw (Stamped.enters_delist w.base)
      | exclusive => cases hp
      | _ => cases howns
  | recover i b | borrow i b =>
    cases b with
    | delist | exclusive => cases m <;> cases hp
    | _ => cases howns
  | ask index? =>
    cases m with
    | shared => cases hp
    | exclusive => exact enters_ask index? hw
  | bound index? =>
    cases m with
    | shared => cases hp
    | exclusive => exact .next rfl fun _ => enters_block index? _ 0 hw
  | block index? limit b =>
    cases m with
    | shared => cases hp
    | exclusive => exact enters_block index? limit b hw
  | turn index? limit i =>
    cases m with
    | shared => cases hp
    | exclusive => exact enters_turn index? limit i hw fun hv => enters_block index? limit _ hv
  | change index? => cases m <;> cases hp
  | _ => cases howns

/-- Only a change claims the base. -/
theorem toward_exclusive_of_claims {m : Mode} (hp : Toward m p) (hclaims : p.base.claims = true) :
    m = .exclusive := by
  cases m with
  | exclusive => rfl
  | shared =>
    cases p with
    | recover i b | borrow i b => exact absurd hp (Stamped.Place.toward_of_claims hclaims).2
    | claim index? b => cases hp
    | _ => cases hclaims

theorem outside_of_base {p : Place} (h : Gate.flagged.outside p = true) : p.base = .out := by
  cases p with
  | out => rfl
  | _ => cases h

theorem outside_false (h : p.base ≠ .out) : Gate.flagged.outside p = false := by
  cases p with
  | out => exact absurd rfl h
  | _ => rfl

end Flagged

theorem Gate.counts_flagged : Gate.flagged.Excludes Flagged.Counts Flagged.Toward :=
  Gate.excludes_flagged.refine (fun h => h.fits) Flagged.counts_replicate
    (fun m luck h hp hway => ⟨Gate.excludes_flagged.seek m luck h.fits hp hway,
      (Flagged.atBase_seek m luck _ _).waits hp h.waits⟩)
    fun h hp hinside => ⟨h.fits.leave hp hinside, (Flagged.atBase_leave _ hinside).waits hp h.waits⟩

theorem Gate.admits_flagged : Gate.flagged.Admits Flagged.Counts Flagged.Toward where
  waits := by
    intro p m hp
    cases p with
    | access | change => cases m <;> cases hp
    | borrow i b =>
      cases b with
      | shared => cases m <;> cases hp
      | _ => rfl
    | _ => rfl
  way := by
    rintro w ps h hall ⟨p, hp, hout⟩
    by_cases hshares : ∃ q ∈ ps, q.base.shares = true
    · obtain ⟨q, hq, hshare⟩ := hshares
      refine ⟨q, hq, Flagged.outside_false ?_, fun m hm => Flagged.enters_of_shares hm hshare⟩
      intro hbase
      rw [hbase] at hshare
      cases hshare
    · have hshares : ∀ q ∈ ps, q.base.shares = false := by simpa using hshares
      have hw : Flagged.Lowered w := by
        apply h.fits.lowered
        intro q hq
        obtain ⟨m, hm⟩ := hall q hq
        exact Flagged.Place.raised?_of_toward hm (hshares q hq)
      by_cases howns : ∃ q ∈ ps, q.base.owns = true
      · obtain ⟨q, hq, hown⟩ := howns
        refine ⟨q, hq, Flagged.outside_false ?_, fun m hm => Flagged.enters_of_owns hw hm hown⟩
        intro hbase
        rw [hbase] at hown
        cases hown
      · have howns : ∀ q ∈ ps, q.base.owns = false := by simpa using howns
        have hfree : w.base.state.toNat % 131072 = 0 := by
          apply h.fits.base.free_of_all
          · simpa using hshares
          · simpa using howns
        by_cases hclaims : ∃ q ∈ ps, q.base.claims = true
        · obtain ⟨q, hq, hclaim⟩ := hclaims
          refine ⟨q, hq, Flagged.outside_false ?_, ?_⟩
          · intro hbase
            rw [hbase] at hclaim
            cases hclaim
          · intro m hm
            obtain rfl := Flagged.toward_exclusive_of_claims hm hclaim
            exact Flagged.enters_change hw hfree hm
        · -- no change waits for the base, so nobody is held back
          have hquiet : w.base.Quiet := by
            refine ⟨hfree, h.waits.eq_zero_of_all ?_⟩
            intro b hb
            obtain ⟨q, hq, rfl⟩ := List.mem_map.mp hb
            apply Stamped.Place.waits_of_not_claims
            rw [Bool.eq_false_iff]
            intro hclaim
            exact hclaims ⟨q, hq, hclaim⟩
          exact ⟨p, hp, hout, fun m hm => Flagged.enters hw hquiet hm⟩
  out := by
    intro w ps h hall p hp m
    have hbase (q : Flagged.Place) (hq : q ∈ ps) : q.base = .out :=
      Flagged.outside_of_base (hall q hq)
    have hquiet : w.base.Quiet := by
      refine Stamped.quiet_of_out h.fits.base h.waits ?_
      intro i b hb
      obtain ⟨q, hq, rfl⟩ := List.mem_map.mp (List.mem_of_getElem? hb)
      exact hbase q hq
    have hw : Flagged.Lowered w := by
      apply h.fits.lowered
      intro q hq
      have hout := hall q hq
      cases q with
      | out => rfl
      | _ => cases hout
    exact Flagged.enters hw hquiet (Gate.excludes_flagged.outside m (hall p hp))

end Growable.Lock
