import Growable.Proofs.Lock.Flags

/-!
# The layout lock with flags keeps threads apart

Every step of every thread keeps the base, the indices and the flags as `Fits` has them, so the lock
is a gate that excludes. What it has beyond the other gates is that a flag, once turned over, stays
so for as long as the base is held exclusively.
-/

namespace Growable.Lock.Flagged

/-- The word fits the places of all threads. -/
structure Fits (w : Flagged) (ps : List Place) : Prop where
  base : Stamped.Fits w.base (ps.map Place.base)
  enlisted : Enlisted w.roster ps
  minded : Minded w ps

/-- The places outside and on the way into a mode. -/
def Toward : Mode → Place → Prop
  | .shared, .out _ | .shared, .draw | .shared, .install _ | .shared, .raise _ | .shared, .mark _
  | .shared, .announce _ | .shared, .release _ => True
  | .shared, .recover _ p | .shared, .borrow _ p => Stamped.Toward .shared p
  | .exclusive, .claim _ p => Stamped.Toward .exclusive p
  | .exclusive, .out _ | .exclusive, .ask _ | .exclusive, .bound _ | .exclusive, .block ..
  | .exclusive, .turn .. => True
  | _, _ => False

variable {w w' : Flagged} {ps : List Place} {t : Nat} {p q : Place}

theorem flag_new (i : Nat) : ({} : Flagged).flag i = .change := by
  by_cases hi : i < Roster.flagged
  · simp [flag, hi]
  · exact flag_of_le (by omega)

theorem fits_replicate (n : Nat) : Fits {} (.replicate n (.out none)) := by
  have hout {t : Nat} {p : Place} (h : (List.replicate n (Place.out none))[t]? = some p) :
      p = .out none := by
    obtain ⟨-, rfl⟩ := List.getElem?_eq_some_iff.mp h
    simp
  refine ⟨?_, ⟨?_, ?_, ?_, .nil⟩, ⟨?_, ?_, ?_, ?_, ?_, ?_⟩⟩
  · rw [List.map_replicate]
    exact Stamped.fits_replicate n
  · intro a b p q i ha hb hp hq
    obtain rfl := hout ha
    cases hp
  · intro a p i ha hp
    obtain rfl := hout ha
    cases hp
  · intro i hi
    cases hi
  · intro a p i ha hp
    obtain rfl := hout ha
    cases hp
  · intro i hi
    rw [flag_new] at hi
    cases hi
  · intro a p ha
    obtain rfl := hout ha
    exact trivial
  · intro i hi
    exact absurd (flag_new i) hi
  · intro i hi
    exact absurd (flag_new i) hi
  · intro a p i ha hi
    exact absurd (flag_new i) hi

namespace Fits

/-- The place of the thread at the base. -/
theorem base_get? (hp : ps[t]? = some p) : (ps.map Place.base)[t]? = some p.base := by
  rw [List.getElem?_map, hp]
  rfl

/-- A thread that stays where it is at the base. -/
theorem base_keep (h : Fits w ps) (hp : ps[t]? = some p) (hq : q.base = p.base) :
    Stamped.Fits w.base ((ps.set t q).map Place.base) := by
  have hkeep := h.base.move (base_get? hp) (q := q.base) rfl (by rw [hq]) (by rw [hq])
    (hq ▸ h.base.sound (base_get? hp))
  rwa [← List.map_set] at hkeep

/-- A thread that takes a step at the base. -/
theorem base_seek (h : Fits w ps) (hp : ps[t]? = some p) (m : Mode) (luck : Bool)
    (hq : q.base = (Stamped.seek m luck w.base p.base).2) :
    Stamped.Fits (Stamped.seek m luck w.base p.base).1 ((ps.set t q).map Place.base) := by
  have hseek := h.base.seek (base_get? hp) m luck
  rwa [← hq, ← List.map_set] at hseek

theorem base_leave_shared (h : Fits w ps) (hp : ps[t]? = some p) (hshared : p.base = .shared)
    (hq : q.base = .out) :
    Stamped.Fits (Stamped.leave w.base .shared).1 ((ps.set t q).map Place.base) := by
  have hleave := h.base.leave_shared (hshared ▸ base_get? hp)
  rwa [← hq, ← List.map_set] at hleave

theorem base_leave_exclusive (h : Fits w ps) (hp : ps[t]? = some p) (hshared : p.base = .exclusive)
    (hq : q.base = .out) :
    Stamped.Fits (Stamped.leave w.base .exclusive).1 ((ps.set t q).map Place.base) := by
  have hleave := h.base.leave_exclusive (hshared ▸ base_get? hp)
  rwa [← hq, ← List.map_set] at hleave

/-- Besides a thread that holds the base exclusively, no thread holds it. -/
theorem base_owner (h : Fits w ps) {u : Nat} (htu : t ≠ u) (hp : ps[t]? = some p)
    (hq : ps[u]? = some q) (howns : p.base.owns = true) :
    q.base.owns = false ∧ q.base.shares = false :=
  h.base.owner htu (base_get? hp) (base_get? hq) howns

/-- Of other threads, none keeps the flag of this one raised. -/
theorem raised_other (h : Fits w ps) (hp : ps[t]? = some p) {i : Nat} (hi : p.index? = some i)
    {u : Nat} {x : Place} (hut : u ≠ t) (hx : ps[u]? = some x) : x.raised? ≠ some i := by
  intro hraised
  exact hut (h.enlisted.distinct hx hp (Place.index?_of_raised? hraised) hi)

/-! ### Shared mode -/

/-- A thread moves without a change to the word. -/
theorem pass (h : Fits w ps) (hp : ps[t]? = some p) (hbase : q.base = p.base)
    (hindex : q.index? = p.index?) (hraised : q.raised? = p.raised?)
    (hplaced : p.Placed w → q.Placed w) (hminds : p.minds = false ∨ q.minds = true)
    (hfaced : ∀ i, q.Faces i) : Fits w (ps.set t q) :=
  ⟨h.base_keep hp hbase, h.enlisted.keep hp hindex,
    h.minded.pass hp rfl rfl (Nat.le_refl _) rfl hraised hplaced hminds hfaced⟩

theorem enroll (h : Fits w ps) (hp : ps[t]? = some p) :
    Fits (enroll w p).1 (ps.set t (enroll w p).2) := by
  cases p with
  | out index? =>
    cases index? with
    | some i =>
      unfold Flagged.enroll
      rw [set_of_getElem? hp]
      exact h
    | none =>
      simp only [Flagged.enroll, Roster.scan]
      cases hmin : w.roster.free.min? with
      | none => exact h.pass hp rfl rfl rfl (fun h => h) (.inl rfl) fun _ => trivial
      | some i =>
        exact ⟨h.base_keep hp rfl, h.enlisted.scan hp hmin,
          h.minded.pass hp rfl rfl (Nat.le_refl _) rfl rfl (fun h => h) (.inl rfl)
            fun _ => trivial⟩
  | draw =>
    exact ⟨h.base_keep hp rfl, h.enlisted.draw hp,
      h.minded.pass hp rfl rfl (Nat.le_succ _) rfl rfl (fun _ => trivial) (.inl rfl)
        fun _ => trivial⟩
  | _ =>
    unfold Flagged.enroll
    rw [set_of_getElem? hp]
    exact h

/-- A thread outside that has an index takes the first step into access. -/
theorem begin (h : Fits w ps) {i : Nat} (hp : ps[t]? = some (.out (some i))) :
    Fits w (ps.set t (w.begin i)) := by
  unfold Flagged.begin
  split
  · rename_i hi
    split
    · rename_i hblock
      refine ⟨h.base_keep hp rfl, h.enlisted.keep hp rfl, ?_⟩
      exact h.minded.move hp rfl (fun _ hb => hb) (Nat.le_refl _) rfl ⟨hi, hblock⟩
        (fun _ _ => .inr (.inr ⟨rfl, rfl⟩)) fun _ _ => trivial
    · exact h.pass hp rfl rfl rfl (fun _ => hi) (.inl rfl) fun _ => trivial
  · exact h.pass hp rfl rfl rfl (fun _ => trivial) (.inl rfl) fun _ => trivial

theorem install (h : Fits w ps) {i : Nat} (hp : ps[t]? = some (.install i)) :
    Fits { w with blocks := w.blocks.setIfInBounds (i / blockSize) true }
      (ps.set t (.raise i)) := by
  have hi : i < Roster.flagged := h.minded.placed hp
  refine ⟨h.base_keep hp rfl, h.enlisted.keep hp rfl, ?_⟩
  refine h.minded.move hp rfl (fun _ => hasBlock_of_install rfl) (Nat.le_refl _) rfl
    ⟨hi, hasBlock_install ?_ rfl⟩ (fun _ _ => .inr (.inr ⟨rfl, rfl⟩)) fun _ _ => trivial
  simp only [Roster.flagged, blockSize] at hi ⊢
  omega

theorem raise (h : Fits w ps) {i : Nat} (hp : ps[t]? = some (.raise i))
    (hflag : w.flag i = .inactive) : Fits (w.setFlag i .access) (ps.set t (.access i)) := by
  have hplaced : i < Roster.flagged ∧ w.hasBlock (i / blockSize) = true := h.minded.placed hp
  have hleft : w.flag i ≠ .change := by
    rw [hflag]
    decide
  refine ⟨h.base_keep hp rfl, h.enlisted.keep hp rfl, ?_⟩
  refine h.minded.set hp rfl hplaced.1 (h.raised_other hp rfl) (fun _ h => nomatch h) ?_
    (fun h => h) (h.minded.found hleft) (.inr ⟨rfl, hleft⟩) (.inl hleft) fun _ _ => trivial
  intro j
  simp [Place.raised?, eq_comm]

theorem mark (h : Fits w ps) {i : Nat} (hp : ps[t]? = some (.mark i)) :
    Fits (w.setFlag i .access) (ps.set t (.announce i)) := by
  have hplaced : i < Roster.flagged ∧ w.hasBlock (i / blockSize) = true := h.minded.placed hp
  refine ⟨h.base_keep hp rfl, h.enlisted.keep hp rfl, ?_⟩
  refine h.minded.set hp rfl hplaced.1 (h.raised_other hp rfl) (fun _ h => nomatch h) ?_
    (fun h => h) ⟨(h.enlisted.known hp rfl).1, hplaced.2⟩ (.inl rfl) (.inr ?_)
    fun _ _ => trivial
  · intro j
    simp [Place.raised?, eq_comm]
  · -- the base is held in shared mode, so no change has come past any flag
    intro u x hut hu
    refine Place.faces_of_base ?_ i
    cases howns : x.base.owns with
    | false => rfl
    | true => cases (h.base_owner hut hu hp howns).2

theorem announce (h : Fits w ps) {i : Nat} (hp : ps[t]? = some (.announce i)) :
    Fits { w with needToRecover := true } (ps.set t (.release i)) := by
  refine ⟨h.base_keep hp rfl, h.enlisted.keep hp rfl, ?_⟩
  exact h.minded.move hp rfl (fun _ hb => hb) (Nat.le_refl _) rfl (h.minded.placed hp)
    (fun _ _ => .inl rfl) fun _ _ => trivial

/-- A thread moves on once it has taken a step at the base. -/
theorem step_base (h : Fits w ps) (hp : ps[t]? = some p) {b : Stamped}
    (hbase : Stamped.Fits b ((ps.set t q).map Place.base)) (hindex : q.index? = p.index?)
    (hraised : q.raised? = p.raised?) (hplaced : p.Placed w → q.Placed w)
    (hminds : p.minds = false ∨ q.minds = true) (hfaced : ∀ i, q.Faces i) :
    Fits { w with base := b } (ps.set t q) :=
  ⟨hbase, h.enlisted.keep hp hindex,
    h.minded.pass hp rfl rfl (Nat.le_refl _) rfl hraised hplaced hminds hfaced⟩

theorem seek_shared (h : Fits w ps) (hp : ps[t]? = some p) (hway : Toward .shared p) (luck : Bool) :
    Fits (seek .shared luck w p).1 (ps.set t (seek .shared luck w p).2) := by
  cases p with
  | out index? =>
    cases index? with
    | none => exact h.enroll hp
    | some i => exact h.begin hp
  | draw => exact h.enroll hp
  | install i => exact h.install hp
  | raise i =>
    simp only [Flagged.seek]
    split
    · rename_i hflag
      exact h.raise hp hflag
    · exact h.pass hp rfl rfl rfl (fun h => h) (.inl rfl) fun _ => trivial
  | recover i b =>
    simp only [Flagged.seek]
    split
    · rename_i hshared
      exact h.step_base hp (h.base_seek hp .shared luck hshared.symm) rfl rfl (fun h => h)
        (.inl rfl) fun _ => trivial
    · exact h.step_base hp (h.base_seek hp .shared luck rfl) rfl rfl (fun h => h)
        (.inl rfl) fun _ => trivial
  | mark i => exact h.mark hp
  | announce i => exact h.announce hp
  | release i =>
    exact h.step_base hp (h.base_leave_shared hp rfl rfl) rfl rfl (fun h => h) (.inl rfl)
      fun _ => trivial
  | borrow i b =>
    exact h.step_base hp (h.base_seek hp .shared luck rfl) rfl rfl (fun h => h) (.inl rfl)
      fun _ => trivial
  | _ => cases hway

/-! ### Exclusive mode -/

/-- A change finds no flag to turn over unless it is told of one. -/
theorem flag_of_ask (h : Fits w ps) {index? : Option Nat} (hp : ps[t]? = some (.ask index?))
    (hneed : w.needToRecover = false) (i : Nat) : w.flag i = .change := by
  cases hflag : w.flag i with
  | change => rfl
  | _ =>
    have hleft : w.flag i ≠ .change := by simp [hflag]
    rcases h.minded.minded hleft with htold | ⟨u, x, hu, hminds⟩
    · rw [hneed] at htold
      cases htold
    · -- whoever minds the flag holds the base
      have hut : t ≠ u := by
        rintro rfl
        obtain rfl : Place.ask index? = x := Option.some.inj (hp.symm.trans hu)
        cases hminds
      have hnone := h.base_owner hut hp hu rfl
      cases x with
      | announce => cases hnone.2
      | bound | block | turn => cases hnone.1
      | _ => cases hminds

theorem ask (h : Fits w ps) {index? : Option Nat} (hp : ps[t]? = some (.ask index?)) :
    Fits { w with needToRecover := false }
      (ps.set t (if w.needToRecover then .bound index? else .change index?)) := by
  cases hneed : w.needToRecover with
  | true =>
    refine ⟨h.base_keep hp rfl, h.enlisted.keep hp rfl, ?_⟩
    exact h.minded.move hp rfl (fun _ hb => hb) (Nat.le_refl _) rfl trivial
      (fun _ _ => .inr (.inl rfl)) fun _ _ => trivial
  | false =>
    refine ⟨h.base_keep hp rfl, h.enlisted.keep hp rfl, ?_⟩
    exact h.minded.move hp rfl (fun _ hb => hb) (Nat.le_refl _) rfl trivial
      (fun i hi => absurd (h.flag_of_ask hp hneed i) hi)
      fun i hi => absurd (h.flag_of_ask hp hneed i) hi

theorem bound (h : Fits w ps) {index? : Option Nat} (hp : ps[t]? = some (.bound index?)) :
    Fits w (ps.set t (.block index? w.roster.highWater 0)) := by
  refine ⟨h.base_keep hp rfl, h.enlisted.keep hp rfl, ?_⟩
  refine h.minded.move hp rfl (fun _ hb => hb) (Nat.le_refl _) rfl trivial
    (fun _ _ => .inr (.inl rfl)) ?_
  intro i hi
  have hnext := (h.minded.found hi).1
  have hlast := lt_of_flag_ne hi
  simp only [Place.Faces, Roster.highWater]
  omega

theorem block (h : Fits w ps) {index? : Option Nat} {limit b : Nat}
    (hp : ps[t]? = some (.block index? limit b)) (m : Mode) (luck : Bool) :
    Fits w (ps.set t (seek m luck w (.block index? limit b)).2) := by
  have hfaced {i : Nat} (hi : w.flag i ≠ .change) : b * blockSize ≤ i ∧ i < limit :=
    h.minded.faced hp hi
  simp only [Flagged.seek]
  split
  · rename_i hend
    have hnone (i : Nat) : ¬ w.flag i ≠ .change := by
      intro hi
      have hlast := lt_of_flag_ne hi
      have := hfaced hi
      simp only [Roster.flagged, blockSize] at hlast hend this
      omega
    refine ⟨h.base_keep hp rfl, h.enlisted.keep hp rfl, ?_⟩
    exact h.minded.move hp rfl (fun _ hb => hb) (Nat.le_refl _) rfl trivial
      (fun i hi => absurd hi (hnone i)) fun i hi => absurd hi (hnone i)
  · split
    · refine ⟨h.base_keep hp rfl, h.enlisted.keep hp rfl, ?_⟩
      exact h.minded.move hp rfl (fun _ hb => hb) (Nat.le_refl _) rfl trivial
        (fun _ _ => .inr (.inl rfl)) fun i hi => hfaced hi
    · rename_i hblock
      refine ⟨h.base_keep hp rfl, h.enlisted.keep hp rfl, ?_⟩
      refine h.minded.move hp rfl (fun _ hb => hb) (Nat.le_refl _) rfl trivial
        (fun _ _ => .inr (.inl rfl)) ?_
      intro i hi
      have hin := hfaced hi
      have hne : i / blockSize ≠ b := by
        rintro rfl
        exact hblock (h.minded.found hi).2
      refine ⟨?_, hin.2⟩
      simp only [blockSize] at hin hne ⊢
      omega

theorem faces_afterTurn {index? : Option Nat} {limit i j : Nat} (hij : i < j) (hj : j < limit) :
    (afterTurn index? limit i).Faces j := by
  unfold afterTurn
  split
  · rename_i hlast
    refine ⟨?_, hj⟩
    simp only [blockSize] at hlast ⊢
    omega
  · exact ⟨hij, hj⟩

theorem turn (h : Fits w ps) {index? : Option Nat} {limit i : Nat}
    (hp : ps[t]? = some (.turn index? limit i)) (m : Mode) (luck : Bool) :
    Fits (seek m luck w (.turn index? limit i)).1
      (ps.set t (seek m luck w (.turn index? limit i)).2) := by
  have hfaced {j : Nat} (hj : w.flag j ≠ .change) : i ≤ j ∧ j < limit := h.minded.faced hp hj
  have hafter : (afterTurn index? limit i).base = .exclusive ∧
      (afterTurn index? limit i).index? = index? ∧ (afterTurn index? limit i).raised? = none ∧
      (afterTurn index? limit i).Placed w ∧ (afterTurn index? limit i).minds = true := by
    unfold afterTurn
    split
    · exact ⟨rfl, rfl, rfl, trivial, rfl⟩
    · exact ⟨rfl, rfl, rfl, trivial, rfl⟩
  obtain ⟨hbase, hindex, hraised, hplaced, hminds⟩ := hafter
  cases hw : w.flag i with
  | inactive =>
    have hleft : w.flag i ≠ .change := by
      rw [hw]
      decide
    have hlast := lt_of_flag_ne hleft
    simp only [Flagged.seek, hw]
    refine ⟨h.base_keep hp hbase, h.enlisted.keep hp hindex, ?_⟩
    refine h.minded.set hp rfl hlast ?_ (fun _ h => nomatch h) ?_ (fun _ => hplaced)
      (h.minded.found hleft) (.inl hminds) (.inl hleft) ?_
    · intro u x _ hu hx
      have := h.minded.raised hu hx
      rw [hw] at this
      cases this
    · intro j
      simp [hraised]
    · intro j hj
      have hji : j ≠ i := by
        rintro rfl
        exact hj (flag_setFlag_self .change hlast)
      rw [flag_setFlag_of_ne _ (Ne.symm hji)] at hj
      have hin := hfaced hj
      exact faces_afterTurn (by omega) hin.2
  | change =>
    simp only [Flagged.seek, hw]
    refine ⟨h.base_keep hp hbase, h.enlisted.keep hp hindex, ?_⟩
    refine h.minded.move hp rfl (fun _ hb => hb) (Nat.le_refl _) hraised hplaced
      (fun _ _ => .inr (.inl hminds)) ?_
    intro j hj
    have hin := hfaced hj
    have hji : j ≠ i := by
      rintro rfl
      exact hj hw
    exact faces_afterTurn (by omega) hin.2
  | access =>
    simp only [Flagged.seek, hw]
    rw [set_of_getElem? hp]
    exact h

theorem claim (h : Fits w ps) {index? : Option Nat} {b : Stamped.Place}
    (hp : ps[t]? = some (.claim index? b)) (luck : Bool) :
    Fits (seek .exclusive luck w (.claim index? b)).1
      (ps.set t (seek .exclusive luck w (.claim index? b)).2) := by
  simp only [Flagged.seek]
  split
  · rename_i hexclusive
    exact h.step_base hp (h.base_seek hp .exclusive luck hexclusive.symm) rfl rfl
      (fun _ => trivial) (.inl rfl) fun _ => trivial
  · exact h.step_base hp (h.base_seek hp .exclusive luck rfl) rfl rfl (fun _ => trivial)
      (.inl rfl) fun _ => trivial

theorem seek_exclusive (h : Fits w ps) (hp : ps[t]? = some p) (hway : Toward .exclusive p)
    (luck : Bool) :
    Fits (seek .exclusive luck w p).1 (ps.set t (seek .exclusive luck w p).2) := by
  cases p with
  | out index? => exact h.pass hp rfl rfl rfl (fun _ => trivial) (.inl rfl) fun _ => trivial
  | claim index? b => exact h.claim hp luck
  | ask index? => exact h.ask hp
  | bound index? => exact h.bound hp
  | block index? limit b =>
    have hword : (Flagged.seek .exclusive luck w (.block index? limit b)).1 = w := by
      simp only [Flagged.seek]
      split
      · rfl
      · rfl
    rw [hword]
    exact h.block hp .exclusive luck
  | turn index? limit i => exact h.turn hp .exclusive luck
  | _ => cases hway

/-! ### Leaving, and ending -/

theorem leave_access (h : Fits w ps) {i : Nat} (hp : ps[t]? = some (.access i)) :
    Fits (w.setFlag i .inactive) (ps.set t (.out (some i))) := by
  obtain ⟨hi, hblock⟩ : i < Roster.flagged ∧ w.hasBlock (i / blockSize) = true :=
    h.minded.placed hp
  have hleft : w.flag i ≠ .change := by
    rw [h.minded.raised hp rfl]
    decide
  refine ⟨h.base_keep hp rfl, h.enlisted.keep hp rfl, ?_⟩
  refine h.minded.set hp rfl hi (h.raised_other hp rfl) ?_ ?_ (fun _ => trivial)
    (h.minded.found hleft) (.inr ⟨rfl, hleft⟩) (.inl hleft) fun _ _ => trivial
  · intro j hj
    exact (Option.some.inj hj).symm
  · intro j
    simp [Place.raised?]

theorem leave (h : Fits w ps) (hp : ps[t]? = some p) (hinside : Gate.flagged.inside p = true) :
    Fits (leave w p).1 (ps.set t (leave w p).2) := by
  cases p with
  | access i => exact h.leave_access hp
  | borrow i b =>
    cases b with
    | shared =>
      exact h.step_base hp (h.base_leave_shared hp rfl rfl) rfl rfl (fun _ => trivial) (.inl rfl)
        fun _ => trivial
    | _ => cases hinside
  | change index? =>
    exact h.step_base hp (h.base_leave_exclusive hp rfl rfl) rfl rfl (fun _ => trivial)
      (.inl rfl) fun _ => trivial
  | _ => cases hinside

theorem retire (h : Fits w ps) (hp : ps[t]? = some p) :
    Fits (retire w p).1 (ps.set t (retire w p).2) := by
  have hstay : Fits w (ps.set t p) := by
    rw [set_of_getElem? hp]
    exact h
  cases p with
  | out index? =>
    cases index? with
    | none => exact hstay
    | some i =>
      exact ⟨h.base_keep hp rfl, h.enlisted.release hp,
        h.minded.pass hp rfl rfl (Nat.le_refl _) rfl rfl (fun _ => trivial) (.inl rfl)
          fun _ => trivial⟩
  | _ => exact hstay

/-! ### What the lock promises -/

/-- A granted change finds every flag turned over. -/
theorem flag_of_change (h : Fits w ps) {index? : Option Nat} (hp : ps[t]? = some (.change index?))
    (i : Nat) : w.flag i = .change := by
  cases hflag : w.flag i with
  | change => rfl
  | _ =>
    have hleft : w.flag i ≠ .change := by simp [hflag]
    cases h.minded.faced hp hleft

theorem apart (h : Fits w ps) {u : Nat} (htu : t ≠ u) (hp : ps[t]? = some p) (hq : ps[u]? = some q)
    (hholds : holds .exclusive p = true) : Gate.flagged.inside q = false := by
  cases p with
  | change index? =>
    have hnone := h.base_owner htu hp hq rfl
    cases q with
    | access i =>
      have hraised := h.minded.raised hq rfl
      rw [h.flag_of_change hp i] at hraised
      cases hraised
    | borrow i b =>
      cases b with
      | shared => cases hnone.2
      | _ => rfl
    | change => cases hnone.1
    | _ => rfl
  | _ => cases hholds

end Fits

/-! ### The way in -/

theorem toward_shared (hway : Toward .shared p) (luck : Bool) :
    holds .shared (seek .shared luck w p).2 = true ∨
      Toward .shared (seek .shared luck w p).2 := by
  cases p with
  | out index? =>
    cases index? with
    | none =>
      simp only [seek, enroll]
      split <;> exact .inr trivial
    | some i =>
      simp only [seek, begin]
      split
      · split <;> exact .inr trivial
      · exact .inr trivial
  | raise i =>
    simp only [seek]
    split
    · exact .inl rfl
    · exact .inr trivial
  | recover i b =>
    simp only [seek]
    split
    · exact .inr trivial
    · rename_i hnot
      rcases Gate.excludes_stamped.toward (w := w.base) .shared luck hway with hholds | hway'
      · refine absurd ?_ hnot
        cases hb : (Stamped.seek .shared luck w.base b).2 with
        | shared => rfl
        | _ => simp [hb, Stamped.holds] at hholds
      · exact .inr hway'
  | borrow i b =>
    rcases Gate.excludes_stamped.toward (w := w.base) .shared luck hway with hholds | hway'
    · left
      simp only [seek]
      cases hb : (Stamped.seek .shared luck w.base b).2 with
      | shared => rfl
      | _ => simp [hb, Stamped.holds] at hholds
    · exact .inr hway'
  | release i => exact .inl rfl
  | draw | install i | mark i | announce i => exact .inr trivial
  | _ => cases hway

theorem toward_exclusive (hway : Toward .exclusive p) (luck : Bool) :
    holds .exclusive (seek .exclusive luck w p).2 = true ∨
      Toward .exclusive (seek .exclusive luck w p).2 := by
  cases p with
  | out index? => exact .inr trivial
  | claim index? b =>
    simp only [seek]
    split
    · exact .inr trivial
    · rename_i hnot
      rcases Gate.excludes_stamped.toward (w := w.base) .exclusive luck hway with hholds | hway'
      · refine absurd ?_ hnot
        cases hb : (Stamped.seek .exclusive luck w.base b).2 with
        | exclusive => rfl
        | _ => simp [hb, Stamped.holds] at hholds
      · exact .inr hway'
  | ask index? =>
    simp only [seek]
    split
    · exact .inr trivial
    · exact .inl rfl
  | bound index? => exact .inr trivial
  | block index? limit b =>
    simp only [seek]
    split
    · exact .inl rfl
    · split <;> exact .inr trivial
  | turn index? limit i =>
    have hafter : Toward .exclusive (afterTurn index? limit i) := by
      unfold afterTurn
      split <;> exact trivial
    simp only [seek]
    split
    · exact .inr hafter
    · exact .inr hafter
    · exact .inr trivial
  | _ => cases hway

end Flagged

theorem Gate.excludes_flagged : Gate.flagged.Excludes Flagged.Fits Flagged.Toward where
  idle := Flagged.fits_replicate
  seek := by
    intro w ps i p m luck h hp hway
    cases m with
    | shared => exact h.seek_shared hp hway luck
    | exclusive => exact h.seek_exclusive hp hway luck
  leave := by
    intro w ps i p h hp hinside
    exact h.leave hp hinside
  apart := by
    intro w ps i j p q h hij hp hq hholds
    exact h.apart hij hp hq hholds
  fresh := rfl
  outside := by
    intro p m hout
    cases p with
    | out => cases m <;> exact trivial
    | _ => cases hout
  toward := by
    intro w p m luck hway
    cases m with
    | shared => exact Flagged.toward_shared hway luck
    | exclusive => exact Flagged.toward_exclusive hway luck
  left := by
    intro w p hinside
    cases p with
    | access | change => rfl
    | borrow i b =>
      cases b with
      | shared => rfl
      | _ => cases hinside
    | _ => cases hinside

end Growable.Lock
