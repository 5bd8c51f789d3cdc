import Growable.Proofs.Lock.Word
import Growable.Proofs.Threads

/-!
# Exclusion

A gate keeps a thread in exclusive mode apart from every other thread inside. What is promised is
said of the word and of the places where all threads stand, and is kept by each step of each thread,
so it holds at every moment of every run. `Gate.Excludes` is the promise; the word of the stamped
lock and that of the layout lock keep it because they count the threads inside.
-/

namespace Growable.Lock

/-- `Fits` relates the word to the places of all threads, and `Toward` holds of the places outside
and on the way into a mode. -/
structure Gate.Excludes (G : Gate) (Fits : G.Word → List G.Place → Prop)
    (Toward : Mode → G.Place → Prop) : Prop where
  idle : ∀ n, Fits G.free (.replicate n G.fresh)
  seek : ∀ {w : G.Word} {ps : List G.Place} {i : Nat} {p : G.Place} (m : Mode) (luck : Bool),
    Fits w ps → ps[i]? = some p → Toward m p →
    Fits (G.seek m luck w p).1 (ps.set i (G.seek m luck w p).2)
  leave : ∀ {w : G.Word} {ps : List G.Place} {i : Nat} {p : G.Place}, Fits w ps →
    ps[i]? = some p → G.inside p = true → Fits (G.leave w p).1 (ps.set i (G.leave w p).2)
  apart : ∀ {w : G.Word} {ps : List G.Place} {i j : Nat} {p q : G.Place}, Fits w ps → i ≠ j →
    ps[i]? = some p → ps[j]? = some q → G.holds .exclusive p = true → G.inside q = false
  fresh : G.outside G.fresh = true
  outside : ∀ {p : G.Place} (m : Mode), G.outside p = true → Toward m p
  toward : ∀ {w : G.Word} {p : G.Place} (m : Mode) (luck : Bool), Toward m p →
    G.holds m (G.seek m luck w p).2 = true ∨ Toward m (G.seek m luck w p).2
  left : ∀ {w : G.Word} {p : G.Place}, G.inside p = true → G.outside (G.leave w p).2 = true

theorem Gate.Excludes.inside_of_holds {G : Gate} {m : Mode} {p : G.Place}
    (h : G.holds m p = true) : G.inside p = true := by
  cases m <;> simp [Gate.inside, h]

/-! ## The stamped lock -/

namespace Stamped

/-- The thread is counted among the holders in exclusive mode. -/
def Place.owns : Place → Bool
  | .delist | .exclusive => true
  | _ => false

/-- The thread is counted among the holders in shared mode. -/
def Place.shares : Place → Bool
  | .shared => true
  | _ => false

/-- A state that a thread has seen and means to exchange had room for it. -/
def Place.Sound : Place → Prop
  | .join seen => seen.toNat % 131072 < 65535
  | .claim seen | .queuedClaim seen => seen.toNat % 131072 = 0
  | _ => True

/-- The word counts the threads that hold the lock. -/
structure Fits (w : Stamped) (ps : List Place) : Prop where
  state : w.state.toNat % 131072 = ps.countP Place.shares + 65536 * ps.countP Place.owns
  apart : ps.countP Place.owns = 0 ∧ ps.countP Place.shares ≤ 65535 ∨
    ps.countP Place.owns = 1 ∧ ps.countP Place.shares = 0
  sound : ∀ {i : Nat} {p : Place}, ps[i]? = some p → p.Sound

/-- The places outside and on the way into a mode. -/
def Toward : Mode → Place → Prop
  | .shared, .out | .shared, .peek | .shared, .join _ => True
  | .exclusive, .out | .exclusive, .claim _ | .exclusive, .enlist | .exclusive, .queued
  | .exclusive, .queuedClaim _ | .exclusive, .delist => True
  | _, _ => False

variable {w : Stamped} {ps : List Place} {i : Nat} {p q : Place}

theorem fits_replicate (n : Nat) : Fits {} (.replicate n .out) := by
  constructor
  · simp [List.countP_replicate, Place.shares, Place.owns]
  · left
    simp [List.countP_replicate, Place.shares, Place.owns]
  · intro i p hp
    obtain ⟨-, rfl⟩ := List.getElem?_eq_some_iff.mp hp
    simp [Place.Sound]

/-- A thread moves without changing what is counted. -/
theorem Fits.move (h : Fits w ps) (hp : ps[i]? = some p) {w' : Stamped} (hw : w'.state = w.state)
    (hshares : q.shares = p.shares) (howns : q.owns = p.owns) (hq : q.Sound) :
    Fits w' (ps.set i q) := by
  have hs := countP_set_add Place.shares hp (b := q)
  have ho := countP_set_add Place.owns hp (b := q)
  rw [hshares] at hs
  rw [howns] at ho
  have hs : (ps.set i q).countP Place.shares = ps.countP Place.shares := by omega
  have ho : (ps.set i q).countP Place.owns = ps.countP Place.owns := by omega
  refine ⟨?_, ?_, ?_⟩
  · rw [hw, hs, ho]
    exact h.state
  · rw [hs, ho]
    exact h.apart
  · intro j r hr
    rcases (getElem?_set_iff hp).mp hr with ⟨-, rfl⟩ | ⟨-, hr⟩
    · exact hq
    · exact h.sound hr

/-- The holders after a thread has moved. -/
theorem Fits.recount (h : Fits w ps) (hp : ps[i]? = some p) {w' : Stamped} (hq : q.Sound)
    (hstate : ∀ s o, s = (ps.set i q).countP Place.shares → o = (ps.set i q).countP Place.owns →
      w'.state.toNat % 131072 = s + 65536 * o ∧ (o = 0 ∧ s ≤ 65535 ∨ o = 1 ∧ s = 0)) :
    Fits w' (ps.set i q) := by
  obtain ⟨hstate, hapart⟩ := hstate _ _ rfl rfl
  refine ⟨hstate, hapart, ?_⟩
  intro j r hr
  rcases (getElem?_set_iff hp).mp hr with ⟨-, rfl⟩ | ⟨-, hr⟩
  · exact hq
  · exact h.sound hr

theorem Fits.join (h : Fits w ps) (hp : ps[i]? = some (.join w.state)) :
    Fits { w with state := w.state + 1 } (ps.set i .shared) := by
  have hroom : w.state.toNat % 131072 < 65535 := h.sound hp
  have hcount := h.state
  have hapart := h.apart
  refine h.recount hp trivial ?_
  rintro s o hs ho
  have hset := countP_set_add Place.shares hp (b := .shared)
  have hset' := countP_set_add Place.owns hp (b := .shared)
  simp only [Place.shares, Place.owns, Bool.false_eq_true, if_false, if_true] at hset hset'
  have hnat : (w.state + 1).toNat = (w.state.toNat + 1) % 2 ^ 64 := UInt64.toNat_add ..
  simp only [hnat]
  omega

theorem Fits.claim (h : Fits w ps) (hp : ps[i]? = some p) (hfree : w.state.toNat % 131072 = 0)
    (hshares : p.shares = false) (howns : p.owns = false) (hq : q.owns = true)
    (hq' : q.shares = false) (hsound : q.Sound) :
    Fits { w with state := w.state + exclusiveBit } (ps.set i q) := by
  have hcount := h.state
  have hapart := h.apart
  apply h.recount hp hsound
  rintro s o hs ho
  have hset := countP_set_add Place.shares hp (b := q)
  have hset' := countP_set_add Place.owns hp (b := q)
  simp only [hshares, howns, hq, hq', Bool.false_eq_true, if_false, if_true] at hset hset'
  have hnat : (w.state + exclusiveBit).toNat = (w.state.toNat + 65536) % 2 ^ 64 :=
    UInt64.toNat_add ..
  simp only [hnat]
  omega

theorem Fits.seek (h : Fits w ps) (hp : ps[i]? = some p) (m : Mode) (luck : Bool) :
    Fits (seek m luck w p).1 (ps.set i (seek m luck w p).2) := by
  cases p with
  | out =>
    cases m with
    | shared =>
      simp only [Stamped.seek]
      split
      · exact h.move hp rfl rfl rfl trivial
      · exact h.move hp rfl rfl rfl trivial
    | exclusive =>
      simp only [Stamped.seek]
      split
      · rename_i hfree
        exact h.move hp rfl rfl rfl ((isFree_iff w).mp hfree)
      · exact h.move hp rfl rfl rfl trivial
  | peek =>
    simp only [Stamped.seek]
    split
    · rename_i hroom
      have hadmits := (admits_iff w).mp hroom
      refine h.move hp rfl rfl rfl ?_
      show w.state.toNat % 131072 < 65535
      omega
    · exact h.move hp rfl rfl rfl trivial
  | join seen =>
    simp only [Stamped.seek]
    split
    · rename_i hsame
      have hsame : w.state = seen := by
        have := Bool.and_eq_true .. ▸ hsame
        exact eq_of_beq this.2
      subst hsame
      exact h.join hp
    · exact h.move hp rfl rfl rfl trivial
  | shared => exact h.move hp rfl rfl rfl trivial
  | claim seen =>
    simp only [Stamped.seek]
    split
    · rename_i hsame
      have hsame : w.state = seen := eq_of_beq hsame
      subst hsame
      exact h.claim hp (h.sound hp) rfl rfl rfl rfl trivial
    · exact h.move hp rfl rfl rfl trivial
  | enlist => exact h.move hp rfl rfl rfl trivial
  | queued =>
    simp only [Stamped.seek]
    split
    · rename_i hfree
      exact h.move hp rfl rfl rfl ((isFree_iff w).mp hfree)
    · exact h.move hp rfl rfl rfl trivial
  | queuedClaim seen =>
    simp only [Stamped.seek]
    split
    · rename_i hsame
      have hsame : w.state = seen := eq_of_beq hsame
      subst hsame
      exact h.claim hp (h.sound hp) rfl rfl rfl rfl trivial
    · exact h.move hp rfl rfl rfl trivial
  | delist => exact h.move hp rfl rfl rfl trivial
  | exclusive => exact h.move hp rfl rfl rfl trivial

theorem Fits.leave_shared (h : Fits w ps) (hp : ps[i]? = some .shared) :
    Fits { w with state := w.state - 1 } (ps.set i .out) := by
  have hcount := h.state
  have hapart := h.apart
  have hpos : 0 < ps.countP Place.shares := countP_pos_of_getElem? hp rfl
  refine h.recount hp trivial ?_
  rintro s o hs ho
  have hset := countP_set_add Place.shares hp (b := .out)
  have hset' := countP_set_add Place.owns hp (b := .out)
  simp only [Place.shares, Place.owns, Bool.false_eq_true, if_false, if_true] at hset hset'
  have hle : (1 : UInt64) ≤ w.state := by
    rw [UInt64.le_iff_toNat_le]
    show 1 ≤ w.state.toNat
    omega
  have hnat : (w.state - 1).toNat = w.state.toNat - 1 := UInt64.toNat_sub_of_le _ _ hle
  simp only [hnat]
  omega

theorem Fits.leave_exclusive (h : Fits w ps) (hp : ps[i]? = some .exclusive) :
    Fits { w with state := w.state + exclusiveBit } (ps.set i .out) := by
  have hcount := h.state
  have hapart := h.apart
  have hpos : 0 < ps.countP Place.owns := countP_pos_of_getElem? hp rfl
  refine h.recount hp trivial ?_
  rintro s o hs ho
  have hset := countP_set_add Place.shares hp (b := .out)
  have hset' := countP_set_add Place.owns hp (b := .out)
  simp only [Place.shares, Place.owns, Bool.false_eq_true, if_false, if_true] at hset hset'
  have hnat : (w.state + exclusiveBit).toNat = (w.state.toNat + 65536) % 2 ^ 64 :=
    UInt64.toNat_add ..
  simp only [hnat]
  omega

/-- A thread in exclusive mode, or about to be, is the only one counted. -/
theorem Fits.owner (h : Fits w ps) {j : Nat} (hij : i ≠ j) (hp : ps[i]? = some p)
    (hq : ps[j]? = some q) (howns : p.owns = true) : q.owns = false ∧ q.shares = false := by
  have hset := countP_set_add Place.owns hp (b := .out)
  have hout : Place.out.owns = false := rfl
  rw [howns, hout, if_pos rfl, if_neg Bool.false_ne_true] at hset
  have hapart := h.apart
  constructor
  · cases hother : q.owns with
    | false => rfl
    | true =>
      have hq : (ps.set i .out)[j]? = some q := by rwa [List.getElem?_set_ne hij]
      have := countP_pos_of_getElem? hq hother
      omega
  · cases hother : q.shares with
    | false => rfl
    | true =>
      have := countP_pos_of_getElem? hq hother
      omega

end Stamped

theorem Gate.excludes_stamped : Gate.stamped.Excludes Stamped.Fits Stamped.Toward where
  idle := Stamped.fits_replicate
  seek := by
    intro w ps i p m luck h hp _
    exact h.seek hp m luck
  leave := by
    intro w ps i p h hp hinside
    cases p with
    | shared => exact h.leave_shared hp
    | exclusive => exact h.leave_exclusive hp
    | _ => cases hinside
  apart := by
    intro w ps i j p q h hij hp hq hholds
    have howns : p.owns = true := by
      cases p with
      | exclusive => rfl
      | _ => cases hholds
    have hq' := h.owner hij hp hq howns
    cases q with
    | shared => cases hq'.2
    | exclusive => cases hq'.1
    | _ => rfl
  fresh := rfl
  outside := by
    intro p m hout
    have hp : p = .out := eq_of_beq hout
    subst hp
    cases m <;> exact trivial
  toward := by
    intro w p m luck hp
    cases m with
    | shared =>
      cases p with
      | out | peek | join seen =>
        simp only [Stamped.seek]
        split <;> first | exact .inl rfl | exact .inr trivial
      | _ => cases hp
    | exclusive =>
      cases p with
      | out | claim seen | queued | queuedClaim seen =>
        simp only [Stamped.seek]
        split <;> first | exact .inl rfl | exact .inr trivial
      | enlist => exact .inr trivial
      | delist => exact .inl rfl
      | _ => cases hp
  left := by
    intro w p hinside
    cases p with
    | shared | exclusive => rfl
    | _ => cases hinside

/-! ## The layout lock -/

namespace Layout

/-- The thread is counted as in a change. -/
def Place.owns : Place → Bool
  | .retract | .change => true
  | _ => false

/-- The thread is counted as in access. -/
def Place.shares : Place → Bool
  | .access => true
  | _ => false

/-- A state that a thread has seen and means to exchange had room for it. -/
def Place.Sound : Place → Prop
  | .join seen => seen.toNat < 0x7fffffffffffffff
  | _ => True

/-- The word counts the threads in access, or marks the one in a change. -/
structure Fits (w : Layout) (ps : List Place) : Prop where
  state : ps.countP Place.owns = 0 ∧ w.state.toNat = ps.countP Place.shares ∧
      ps.countP Place.shares < 0x8000000000000000 ∨
    ps.countP Place.owns = 1 ∧ ps.countP Place.shares = 0 ∧ w.state.toNat = 0x8000000000000000
  sound : ∀ {i : Nat} {p : Place}, ps[i]? = some p → p.Sound

/-- The places outside and on the way into a mode. -/
def Toward : Mode → Place → Prop
  | .shared, .out | .shared, .peek | .shared, .join _ => True
  | .exclusive, .out | .exclusive, .claim | .exclusive, .retract => True
  | _, _ => False

variable {w w' : Layout} {ps : List Place} {i : Nat} {p q : Place}

theorem fits_replicate (n : Nat) : Fits {} (.replicate n .out) := by
  constructor
  · left
    simp [List.countP_replicate, Place.shares, Place.owns]
  · intro i p hp
    obtain ⟨-, rfl⟩ := List.getElem?_eq_some_iff.mp hp
    simp [Place.Sound]

/-- The holders after a thread has moved. -/
theorem Fits.recount (h : Fits w ps) (hp : ps[i]? = some p) (hq : q.Sound)
    (hstate : ∀ s o, s = (ps.set i q).countP Place.shares → o = (ps.set i q).countP Place.owns →
      o = 0 ∧ w'.state.toNat = s ∧ s < 0x8000000000000000 ∨
        o = 1 ∧ s = 0 ∧ w'.state.toNat = 0x8000000000000000) :
    Fits w' (ps.set i q) := by
  refine ⟨hstate _ _ rfl rfl, ?_⟩
  intro j r hr
  rcases (getElem?_set_iff hp).mp hr with ⟨-, rfl⟩ | ⟨-, hr⟩
  · exact hq
  · exact h.sound hr

/-- A thread moves without changing what is counted. -/
theorem Fits.move (h : Fits w ps) (hp : ps[i]? = some p) (hw : w'.state = w.state)
    (hshares : q.shares = p.shares) (howns : q.owns = p.owns) (hq : q.Sound) :
    Fits w' (ps.set i q) := by
  have hstate := h.state
  apply h.recount hp hq
  rintro s o hs ho
  have hset := countP_set_add Place.shares hp (b := q)
  have hset' := countP_set_add Place.owns hp (b := q)
  rw [hshares] at hset
  rw [howns] at hset'
  rw [hw]
  omega

theorem Fits.join (h : Fits w ps) (hp : ps[i]? = some (.join w.state)) :
    Fits { w with state := w.state + 1 } (ps.set i .access) := by
  have hroom : w.state.toNat < 0x7fffffffffffffff := h.sound hp
  have hstate := h.state
  refine h.recount hp trivial ?_
  rintro s o hs ho
  have hset := countP_set_add Place.shares hp (b := .access)
  have hset' := countP_set_add Place.owns hp (b := .access)
  simp only [Place.shares, Place.owns, Bool.false_eq_true, if_false, if_true] at hset hset'
  have hnat : (w.state + 1).toNat = (w.state.toNat + 1) % 2 ^ 64 := UInt64.toNat_add ..
  simp only [hnat]
  omega

theorem Fits.claim (h : Fits w ps) (hp : ps[i]? = some .claim) (hfree : w.state = 0) :
    Fits { w with state := changeBit } (ps.set i .retract) := by
  have hstate := h.state
  have hzero : w.state.toNat = 0 := by
    rw [hfree]
    rfl
  refine h.recount hp trivial ?_
  rintro s o hs ho
  have hset := countP_set_add Place.shares hp (b := .retract)
  have hset' := countP_set_add Place.owns hp (b := .retract)
  simp only [Place.shares, Place.owns, Bool.false_eq_true, if_false, if_true] at hset hset'
  exact .inr ⟨by omega, by omega, toNat_changeBit⟩

theorem Fits.seek (h : Fits w ps) (hp : ps[i]? = some p) (m : Mode) (luck : Bool) :
    Fits (seek m luck w p).1 (ps.set i (seek m luck w p).2) := by
  cases p with
  | out =>
    cases m with
    | shared =>
      simp only [Layout.seek]
      split
      · exact h.move hp rfl rfl rfl trivial
      · exact h.move hp rfl rfl rfl trivial
    | exclusive => exact h.move hp rfl rfl rfl trivial
  | peek =>
    simp only [Layout.seek]
    split
    · rename_i hroom
      exact h.move hp rfl rfl rfl ((admits_iff w).mp hroom)
    · exact h.move hp rfl rfl rfl trivial
  | join seen =>
    simp only [Layout.seek]
    split
    · rename_i hsame
      have hsame : w.state = seen := eq_of_beq (Bool.and_eq_true .. ▸ hsame).2
      subst hsame
      exact h.join hp
    · exact h.move hp rfl rfl rfl trivial
  | access => exact h.move hp rfl rfl rfl trivial
  | claim =>
    simp only [Layout.seek]
    split
    · rename_i hsame
      exact h.claim hp (eq_of_beq (Bool.and_eq_true .. ▸ hsame).2)
    · exact h.move hp rfl rfl rfl trivial
  | retract => exact h.move hp rfl rfl rfl trivial
  | change => exact h.move hp rfl rfl rfl trivial

theorem Fits.leave_access (h : Fits w ps) (hp : ps[i]? = some .access) :
    Fits { w with state := w.state - 1 } (ps.set i .out) := by
  have hstate := h.state
  have hpos : 0 < ps.countP Place.shares := countP_pos_of_getElem? hp rfl
  refine h.recount hp trivial ?_
  rintro s o hs ho
  have hset := countP_set_add Place.shares hp (b := .out)
  have hset' := countP_set_add Place.owns hp (b := .out)
  simp only [Place.shares, Place.owns, Bool.false_eq_true, if_false, if_true] at hset hset'
  have hle : (1 : UInt64) ≤ w.state := by
    rw [UInt64.le_iff_toNat_le]
    show 1 ≤ w.state.toNat
    omega
  have hnat : (w.state - 1).toNat = w.state.toNat - 1 := UInt64.toNat_sub_of_le _ _ hle
  simp only [hnat]
  omega

theorem Fits.leave_change (h : Fits w ps) (hp : ps[i]? = some .change) :
    Fits { w with state := 0 } (ps.set i .out) := by
  have hstate := h.state
  have hpos : 0 < ps.countP Place.owns := countP_pos_of_getElem? hp rfl
  refine h.recount hp trivial ?_
  rintro s o hs ho
  have hset := countP_set_add Place.shares hp (b := .out)
  have hset' := countP_set_add Place.owns hp (b := .out)
  simp only [Place.shares, Place.owns, Bool.false_eq_true, if_false, if_true] at hset hset'
  have hzero : (0 : UInt64).toNat = 0 := rfl
  simp only [hzero]
  omega

end Layout

theorem Gate.excludes_layout : Gate.layout.Excludes Layout.Fits Layout.Toward where
  idle := Layout.fits_replicate
  seek := by
    intro w ps i p m luck h hp _
    exact h.seek hp m luck
  leave := by
    intro w ps i p h hp hinside
    cases p with
    | access => exact h.leave_access hp
    | change => exact h.leave_change hp
    | _ => cases hinside
  apart := by
    intro w ps i j p q h hij hp hq hholds
    have howns : p.owns = true := by
      cases p with
      | change => rfl
      | _ => cases hholds
    have hstate := h.state
    have hset := countP_set_add Layout.Place.owns hp (b := .out)
    have hout : Layout.Place.out.owns = false := rfl
    rw [howns, hout, if_pos rfl, if_neg Bool.false_ne_true] at hset
    cases q with
    | access =>
      have := countP_pos_of_getElem? (f := Layout.Place.shares) hq rfl
      omega
    | change =>
      have hq : (ps.set i .out)[j]? = some .change := by rwa [List.getElem?_set_ne hij]
      have := countP_pos_of_getElem? (f := Layout.Place.owns) hq rfl
      omega
    | _ => rfl
  fresh := rfl
  outside := by
    intro p m hout
    have hp : p = .out := eq_of_beq hout
    subst hp
    cases m <;> exact trivial
  toward := by
    intro w p m luck hp
    cases m with
    | shared =>
      cases p with
      | out | peek | join seen =>
        simp only [Layout.seek]
        split <;> first | exact .inl rfl | exact .inr trivial
      | _ => cases hp
    | exclusive =>
      cases p with
      | claim =>
        simp only [Layout.seek]
        split <;> exact .inr trivial
      | out => exact .inr trivial
      | retract => exact .inl rfl
      | _ => cases hp
  left := by
    intro w p hinside
    cases p with
    | access | change => rfl
    | _ => cases hinside

end Growable.Lock
