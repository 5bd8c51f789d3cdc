import Growable.Lock.Flagged
import Growable.Lock.Monitor
import Growable.Proofs.Alone
import Growable.Proofs.Lock.Word

/-!
# Locks that one thread uses by itself

A thread that has a gate to itself is let in within the gate's patience, leaves the gate as free as
it found it, and holds a stamp that stays valid. A monitor lets such a thread in as well, and a
second time if it may be entered again.
-/

namespace Growable.Lock

/-! ## Gates -/

/-- Within this many steps on its way into the mode, a thread gets from the first word and place to
the second, where the mode is granted; before the last step it is not. -/
inductive Gate.Seeks (G : Gate) (m : Mode) : Nat → G.Word × G.Place → G.Word × G.Place → Prop
  | last {n : Nat} {w w' : G.Word} {p p' : G.Place} : G.seek m true w p = (w', p') →
      G.holds m p' = true → Seeks G m (n + 1) (w, p) (w', p')
  | more {n : Nat} {w w' : G.Word} {p p' : G.Place} {b : G.Word × G.Place} :
      G.seek m true w p = (w', p') → G.holds m p' = false → Seeks G m n (w', p') b →
      Seeks G m (n + 1) (w, p) b

theorem Gate.Seeks.mono {G : Gate} {m : Mode} {n k : Nat} {a b : G.Word × G.Place}
    (h : G.Seeks m n a b) (hk : n ≤ k) : G.Seeks m k a b := by
  induction h generalizing k with
  | last hseek hholds =>
    obtain ⟨k, rfl⟩ : ∃ j, k = j + 1 := ⟨k - 1, by omega⟩
    exact .last hseek hholds
  | more hseek hholds _ ih =>
    obtain ⟨k, rfl⟩ : ∃ j, k = j + 1 := ⟨k - 1, by omega⟩
    exact .more hseek hholds (ih (by omega))

/-- A thread of which every step on its way into the mode is a step of the gate gets there with it. -/
theorem Gate.Seeks.goes {σ τ κ ρ : Type} {machine : Machine σ τ κ ρ} {me n : Nat} {G : Gate}
    {m : Mode} {a b : G.Word × G.Place} (way inside : G.Word × G.Place → σ × τ)
    (hrest : ∀ a, machine.rests (way a).2 = false)
    (hstep : ∀ a, machine.step me true (way a).1 (way a).2 =
      if G.holds m (G.seek m true a.1 a.2).2 then inside (G.seek m true a.1 a.2)
      else way (G.seek m true a.1 a.2))
    (h : G.Seeks m n a b) : machine.Goes me n (way a) (inside b) := by
  induction h with
  | @last n w w' p p' hseek hholds =>
    refine .next (hrest (w, p)) ?_ (.refl _ _)
    rw [hstep (w, p), hseek, if_pos hholds]
  | @more n w w' p p' b hseek hholds _ ih =>
    refine .next (hrest (w, p)) ?_ ih
    rw [hstep (w, p), hseek, if_neg (by simp [hholds])]

/-- `Lone` describes a gate at the service of one thread that is outside: the thread is let into
either mode in time, and is alone again after leaving. -/
structure Gate.Solo (G : Gate) (Lone : G.Word → G.Place → Prop) : Prop where
  fresh : Lone G.free G.fresh
  enter : ∀ (m : Mode) (w : G.Word) (p : G.Place), Lone w p →
    ∃ w' p', G.Seeks m G.patience (w, p) (w', p') ∧ Lone (G.leave w' p').1 (G.leave w' p').2
  stamp : G.optimistic = true → ∀ (w : G.Word) (p : G.Place), Lone w p →
    ∃ s, G.stamp? w = some s ∧ G.valid w s = true

namespace Stamped

/-- Nobody holds the lock or waits for it. -/
structure Quiet (w : Stamped) : Prop where
  state : w.state.toNat % 131072 = 0
  waiting : w.waiting = 0

theorem Quiet.seek_shared {w : Stamped} (h : w.Quiet) :
    seek .shared true w .out = (w, .peek) ∧ seek .shared true w .peek = (w, .join w.state) ∧
      seek .shared true w (.join w.state) = ({ w with state := w.state + 1 }, .shared) := by
  have hadmits : w.admits = true := (admits_iff w).mpr ⟨by have := h.state; omega,
    by have := h.state; omega⟩
  simp [seek, h.waiting, hadmits]

theorem Quiet.seek_exclusive {w : Stamped} (h : w.Quiet) :
    seek .exclusive true w .out = (w, .claim w.state) ∧
      seek .exclusive true w (.claim w.state) =
        ({ w with state := w.state + exclusiveBit }, .exclusive) := by
  have hfree : w.isFree = true := (isFree_iff w).mpr h.state
  simp [seek, hfree]

theorem leave_shared_succ (w : Stamped) :
    leave { w with state := w.state + 1 } .shared = (w, .out) := by
  simp [leave]

theorem Quiet.leave_exclusive {w : Stamped} (h : w.Quiet) :
    (leave { w with state := w.state + exclusiveBit } .exclusive).1.Quiet := by
  rcases w with ⟨state, waiting⟩
  have hstate : state.toNat % 131072 = 0 := h.state
  have hwaiting : waiting = 0 := h.waiting
  constructor
  · simp only [leave, UInt64.toNat_add, toNat_exclusiveBit]
    omega
  · change waiting = 0
    exact hwaiting

end Stamped

theorem Gate.solo_stamped : Gate.stamped.Solo fun w p => Stamped.Quiet w ∧ p = .out where
  fresh := ⟨⟨rfl, rfl⟩, rfl⟩
  enter := by
    rintro m w p ⟨hw, rfl⟩
    cases m with
    | shared =>
      obtain ⟨hout, hpeek, hjoin⟩ := hw.seek_shared
      refine ⟨_, _, .more hout rfl (.more hpeek rfl (.last hjoin rfl)), ?_⟩
      rw [show Gate.stamped.leave = Stamped.leave from rfl, Stamped.leave_shared_succ]
      exact ⟨hw, rfl⟩
    | exclusive =>
      obtain ⟨hout, hclaim⟩ := hw.seek_exclusive
      exact ⟨_, _, .more hout rfl (.last hclaim rfl), hw.leave_exclusive, rfl⟩
  stamp := by
    rintro - w p ⟨hw, -⟩
    have hexclusive : w.isExclusive = false := by
      rw [← Bool.not_eq_true, Stamped.isExclusive_iff]
      have := hw.state
      omega
    exact ⟨⟨Stamped.stampBits w.state⟩, by simp [Stamped.stamp?, hexclusive], by simp [Stamped.valid]⟩

namespace Layout

theorem seek_free_shared :
    seek .shared true {} .out = ({}, .peek) ∧ seek .shared true {} .peek = ({}, .join 0) ∧
      seek .shared true {} (.join 0) = ({ state := 1 }, .access) := by
  refine ⟨rfl, ?_, ?_⟩
  · have hadmits : admits {} = true := by decide
    simp [seek, hadmits]
  · simp [seek]

theorem seek_free_exclusive :
    seek .exclusive true {} .out = ({ pending := 1 }, .claim) ∧
      seek .exclusive true { pending := 1 } .claim =
        ({ state := changeBit, pending := 1 }, .retract) ∧
      seek .exclusive true { state := changeBit, pending := 1 } .retract =
        ({ state := changeBit }, .change) := by
  simp [seek]

end Layout

theorem Gate.solo_layout : Gate.layout.Solo fun w p => w = ({} : Layout) ∧ p = .out where
  fresh := ⟨rfl, rfl⟩
  enter := by
    rintro m w p ⟨rfl, rfl⟩
    cases m with
    | shared =>
      obtain ⟨hout, hpeek, hjoin⟩ := Layout.seek_free_shared
      exact ⟨_, _, .more hout rfl (.more hpeek rfl (.last hjoin rfl)), by simp [Layout.leave], rfl⟩
    | exclusive =>
      obtain ⟨hout, hclaim, hretract⟩ := Layout.seek_free_exclusive
      exact ⟨_, _, .more hout rfl (.more hclaim rfl (.last hretract rfl)), by simp [Layout.leave],
        rfl⟩
  stamp h := by cases h

/-! ## The layout lock with flags -/

namespace Flagged

/-- One thread uses the lock by itself and is outside. It has no index yet, or the lowest one. -/
structure Lone (w : Flagged) (p : Place) : Prop where
  base : w.base.Quiet
  place : p = .out none ∧ w.roster = {} ∨ p = .out (some 0) ∧ w.roster = { next := 1 }
  flag : w.flag 0 ≠ .access

theorem seeks_access_of_raise {w : Flagged} (hbase : w.base.Quiet) (hflag : w.flag 0 ≠ .access) :
    ∃ w', Gate.flagged.Seeks .shared 7 (w, .raise 0) (w', .access 0) ∧ w'.base = w.base ∧
      w'.roster = w.roster := by
  cases hw : w.flag 0 with
  | inactive => exact ⟨w.setFlag 0 .access, .last (by simp [seek, hw]) rfl, rfl, rfl⟩
  | access => exact absurd hw hflag
  | change =>
    obtain ⟨hout, hpeek, hjoin⟩ := hbase.seek_shared
    have hraise : seek .shared true w (.raise 0) = (w, .recover 0 .out) := by simp [seek, hw]
    have hrecoverOut : seek .shared true w (.recover 0 .out) = (w, .recover 0 .peek) := by
      simp [seek, hout]
    have hrecoverPeek :
        seek .shared true w (.recover 0 .peek) = (w, .recover 0 (.join w.base.state)) := by
      simp [seek, hpeek]
    have hrecoverJoin : seek .shared true w (.recover 0 (.join w.base.state)) =
        ({ w with base := { w.base with state := w.base.state + 1 } }, .mark 0) := by
      simp [seek, hjoin]
    refine ⟨_, .more hraise rfl (.more hrecoverOut rfl (.more hrecoverPeek rfl
      (.more hrecoverJoin rfl (.more rfl rfl (.more rfl rfl (.last rfl rfl)))))), ?_, rfl⟩
    simp only [setFlag, Stamped.leave_shared_succ]

theorem seeks_access {w : Flagged} (hbase : w.base.Quiet) (hflag : w.flag 0 ≠ .access) :
    ∃ w', Gate.flagged.Seeks .shared 9 (w, .out (some 0)) (w', .access 0) ∧ w'.base = w.base ∧
      w'.roster = w.roster := by
  by_cases hblock : w.hasBlock 0 = true
  · have hbegin : seek .shared true w (.out (some 0)) = (w, .raise 0) := by
      simp [seek, begin, Roster.flagged, hblock]
    obtain ⟨w', hseeks, hw'⟩ := seeks_access_of_raise hbase hflag
    exact ⟨w', .more hbegin rfl (hseeks.mono (by omega)), hw'⟩
  · have hbegin : seek .shared true w (.out (some 0)) = (w, .install 0) := by
      simp [seek, begin, Roster.flagged, hblock]
    obtain ⟨w', hseeks, hw'⟩ := seeks_access_of_raise
      (w := { w with blocks := w.blocks.setIfInBounds 0 true }) hbase hflag
    exact ⟨w', .more hbegin rfl (.more rfl rfl hseeks), hw'⟩

/-- With at most one index handed out, at most the first block is walked through. -/
theorem seeks_change_of_bound {w : Flagged} (index? : Option Nat) (hnext : w.roster.next ≤ 1)
    (hflag : w.flag 0 ≠ .access) :
    ∃ w', Gate.flagged.Seeks .exclusive 4 (w, .bound index?) (w', .change index?) ∧
      w'.base = w.base ∧ w'.roster = w.roster ∧ w'.flag 0 ≠ .access := by
  have hbound : seek .exclusive true w (.bound index?) = (w, .block index? w.roster.next 0) := by
    simp [seek, Roster.highWater, Roster.flagged]
    omega
  rcases Nat.le_one_iff_eq_zero_or_eq_one.mp hnext with hzero | hone
  · refine ⟨w, .more hbound rfl (.last ?_ rfl), rfl, rfl, hflag⟩
    simp [seek, hzero]
  · have hnone (v : Flagged) :
        seek .exclusive true v (.block index? 1 1) = (v, .change index?) := by
      simp [seek, blockSize]
    by_cases hblock : w.hasBlock 0 = true
    · have hfirst : seek .exclusive true w (.block index? w.roster.next 0) =
          (w, .turn index? 1 0) := by
        simp [seek, hone, hblock]
      cases hw : w.flag 0 with
      | inactive =>
        have hturn : seek .exclusive true w (.turn index? 1 0) =
            (w.setFlag 0 .change, .block index? 1 1) := by
          simp [seek, hw, afterTurn, blockSize]
        refine ⟨_, .more hbound rfl (.more hfirst rfl (.more hturn rfl (.last (hnone _) rfl))),
          rfl, rfl, ?_⟩
        rw [flag_setFlag_self _ (by decide)]
        decide
      | access => exact absurd hw hflag
      | change =>
        have hturn : seek .exclusive true w (.turn index? 1 0) = (w, .block index? 1 1) := by
          simp [seek, hw, afterTurn, blockSize]
        exact ⟨_, .more hbound rfl (.more hfirst rfl (.more hturn rfl (.last (hnone _) rfl))),
          rfl, rfl, hflag⟩
    · have hfirst : seek .exclusive true w (.block index? w.roster.next 0) =
          (w, .block index? 1 1) := by
        simp [seek, hone, hblock]
      exact ⟨_, .more hbound rfl (.more hfirst rfl (.last (hnone _) rfl)), rfl, rfl, hflag⟩

theorem seeks_change {w : Flagged} (index? : Option Nat) (hbase : w.base.Quiet)
    (hnext : w.roster.next ≤ 1) (hflag : w.flag 0 ≠ .access) :
    ∃ w', Gate.flagged.Seeks .exclusive 8 (w, .out index?) (w', .change index?) ∧
      w'.base = { w.base with state := w.base.state + Stamped.exclusiveBit } ∧
      w'.roster = w.roster ∧ w'.flag 0 ≠ .access := by
  obtain ⟨hout, hclaim⟩ := hbase.seek_exclusive
  rcases w with ⟨base, needToRecover, flags, blocks, roster⟩
  have hclaimOut : seek .exclusive true ⟨base, needToRecover, flags, blocks, roster⟩
      (.claim index? .out) =
        (⟨base, needToRecover, flags, blocks, roster⟩, .claim index? (.claim base.state)) := by
    simp only [seek, hout]
    rfl
  let held (b : Bool) : Flagged :=
    ⟨{ base with state := base.state + Stamped.exclusiveBit }, b, flags, blocks, roster⟩
  have hclaimClaim : seek .exclusive true ⟨base, needToRecover, flags, blocks, roster⟩
      (.claim index? (.claim base.state)) = (held needToRecover, .ask index?) := by
    simp only [seek, hclaim]
    rfl
  have hflags : flags[0]?.getD .change ≠ .access := hflag
  have hheld : (held false).flag 0 ≠ .access := hflags
  have hask : seek .exclusive true (held needToRecover) (.ask index?) =
      (held false, if needToRecover then .bound index? else .change index?) := rfl
  cases needToRecover with
  | true =>
    obtain ⟨w', hseeks, hw'⟩ := seeks_change_of_bound (w := held false) index? hnext hheld
    exact ⟨w', .more rfl rfl (.more hclaimOut rfl (.more hclaimClaim rfl (.more hask rfl hseeks))),
      hw'⟩
  | false =>
    exact ⟨held false, .more rfl rfl (.more hclaimOut rfl (.more hclaimClaim rfl (.last hask rfl))),
      rfl, rfl, hheld⟩

theorem lone_leave_access {w : Flagged} (hbase : w.base.Quiet)
    (hroster : w.roster = { next := 1 }) :
    Lone (leave w (.access 0)).1 (leave w (.access 0)).2 where
  base := hbase
  place := .inr ⟨rfl, hroster⟩
  flag := by
    change (w.setFlag 0 .inactive).flag 0 ≠ .access
    rw [flag_setFlag_self _ (by decide)]
    decide

theorem lone_leave_change {w : Flagged} {index? : Option Nat}
    (hbase : (Stamped.leave w.base .exclusive).1.Quiet)
    (hplace : Place.out index? = .out none ∧ w.roster = {} ∨
      Place.out index? = .out (some 0) ∧ w.roster = { next := 1 })
    (hflag : w.flag 0 ≠ .access) :
    Lone (leave w (.change index?)).1 (leave w (.change index?)).2 := by
  rcases w with ⟨base, needToRecover, flags, blocks, roster⟩
  have hflags : flags[0]?.getD .change ≠ .access := hflag
  exact ⟨hbase, hplace, hflags⟩

end Flagged

theorem Gate.solo_flagged : Gate.flagged.Solo Flagged.Lone where
  fresh := ⟨⟨rfl, rfl⟩, .inl ⟨rfl, rfl⟩, by decide +kernel⟩
  enter := by
    rintro m w p ⟨hbase, hplace, hflag⟩
    cases m with
    | shared =>
      rcases hplace with ⟨rfl, hroster⟩ | ⟨rfl, hroster⟩
      · -- the thread is handed the index 0 first
        have hout : Flagged.seek .shared true w (.out none) = (w, .draw) := by
          simp [Flagged.seek, Flagged.enroll, hroster, Roster.scan]
          simp [← hroster]
        have hdraw : Flagged.seek .shared true w .draw =
            ({ w with roster := { next := 1 } }, .out (some 0)) := by
          simp [Flagged.seek, Flagged.enroll, hroster, Roster.draw]
        obtain ⟨w', hseeks, hsame, hnext⟩ := Flagged.seeks_access
          (w := { w with roster := { next := 1 } }) hbase hflag
        exact ⟨w', .access 0,
          Gate.Seeks.mono (.more hout rfl (.more hdraw rfl hseeks)) (by simp [Roster.flagged]),
          Flagged.lone_leave_access (hsame ▸ hbase) hnext⟩
      · obtain ⟨w', hseeks, hsame, hnext⟩ := Flagged.seeks_access hbase hflag
        exact ⟨w', .access 0, hseeks.mono (by simp [Roster.flagged]),
          Flagged.lone_leave_access (hsame ▸ hbase) (hnext.trans hroster)⟩
    | exclusive =>
      have hnext : w.roster.next ≤ 1 := by
        rcases hplace with ⟨-, h⟩ | ⟨-, h⟩ <;> simp [h]
      obtain ⟨index?, rfl⟩ : ∃ index?, p = .out index? := by
        rcases hplace with ⟨h, -⟩ | ⟨h, -⟩ <;> exact ⟨_, h⟩
      obtain ⟨w', hseeks, hsame, hroster, hchange⟩ :=
        Flagged.seeks_change index? hbase hnext hflag
      refine ⟨w', .change index?, hseeks.mono (by simp [Roster.flagged]),
        Flagged.lone_leave_change ?_ (hroster ▸ hplace) hchange⟩
      rw [hsame]
      exact hbase.leave_exclusive
  stamp h := by cases h

/-! ## Monitors -/

/-- Within this many steps on its way in, a thread gets from the first word and place to the second,
where it has entered `depth` times; before the last step it has not. -/
inductive Monitor.Seeks (M : Monitor) (me depth : Nat) :
    Nat → M.Word × M.Place → M.Word × M.Place → Prop
  | last {n : Nat} {w w' : M.Word} {p p' : M.Place} : M.seek me w p = (w', p') →
      M.depth p' = depth → Seeks M me depth (n + 1) (w, p) (w', p')
  | more {n : Nat} {w w' : M.Word} {p p' : M.Place} {b : M.Word × M.Place} :
      M.seek me w p = (w', p') → M.depth p' ≠ depth → Seeks M me depth n (w', p') b →
      Seeks M me depth (n + 1) (w, p) b

/-- A monitor lets a thread that uses it by itself in, and in again if it may be entered again. -/
structure Monitor.Solo (M : Monitor) (me : Nat) (word : M.Word) (place : M.Place) : Prop where
  outside : M.depth M.outside = 0
  enter : M.Seeks me 1 M.patience (M.free, M.outside) (word, place)
  leave : M.leave word place = (M.free, M.outside)
  again : M.reenters = true → ∃ w p, M.Seeks me 2 M.patience (word, place) (w, p) ∧
    M.leave w p = (word, place) ∧ M.depth place = 1

theorem Monitor.solo_mutex (me : Nat) : Monitor.mutex.Solo me true true where
  outside := rfl
  enter := .last rfl rfl
  leave := rfl
  again h := by cases h

theorem Monitor.solo_spin (me : Nat) : Monitor.spin.Solo me true .inside where
  outside := rfl
  enter := .more rfl (by decide) (.last rfl rfl)
  leave := rfl
  again h := by cases h

theorem Monitor.solo_reentrant (me : Nat) : Monitor.reentrant.Solo me (some ⟨me, 1⟩) 1 where
  outside := rfl
  enter := .last rfl rfl
  leave := rfl
  again _ := ⟨some ⟨me, 2⟩, 2, .last (by simp) rfl, rfl, rfl⟩

end Growable.Lock
