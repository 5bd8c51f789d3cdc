import Growable.Proofs.Lock.Exclusion
import Growable.Proofs.Lock.Solo

/-!
# Versions and waiting threads

What the word of a stamped lock says besides who holds it. Above the count of shared holders stands
a number that is odd while a thread is in exclusive mode: it rises by one when exclusive mode is
entered and when it is left, comes back to zero after 2⁴⁸ of these, and is not touched by shared
mode. Beside the state, the threads that wait for exclusive mode are counted.
-/

namespace Growable.Lock.Stamped

/-- Version and exclusive bit. -/
def number (w : Stamped) : Nat := w.state.toNat / 65536

theorem number_lt (w : Stamped) : w.number < 2 ^ 48 := by
  have hword := w.state.toNat_lt
  unfold number
  omega

theorem isExclusive_iff_number (w : Stamped) : w.isExclusive = true ↔ w.number % 2 = 1 :=
  isExclusive_iff w

theorem number_free : ({} : Stamped).number = 2 := rfl

theorem isExclusive_free : ({} : Stamped).isExclusive = false := rfl

theorem isExclusive_congr {w w' : Stamped} (h : w'.number = w.number) :
    w'.isExclusive = w.isExclusive := by
  rw [Bool.eq_iff_iff, isExclusive_iff_number, isExclusive_iff_number, h]

theorem toNat_stampBits (state : UInt64) : (stampBits state).toNat = 65536 * (state.toNat / 65536) := by
  have hcount : (state % 0x10000).toNat = state.toNat % 65536 := UInt64.toNat_mod ..
  have hle : state % 0x10000 ≤ state := by
    rw [UInt64.le_iff_toNat_le, hcount]
    omega
  rw [stampBits, UInt64.toNat_sub_of_le _ _ hle, hcount]
  omega

/-- A stamp of the number is valid as long as the number is the same. -/
theorem valid_iff {w : Stamped} {s : Stamp} {n : Nat} (hs : s.bits.toNat = 65536 * n) :
    w.valid s = true ↔ w.number = n := by
  rw [valid, beq_iff_eq, ← UInt64.toNat_inj, toNat_stampBits, hs]
  unfold number
  omega

theorem bits_of_stamp? {w : Stamped} {s : Stamp} (h : w.stamp? = some s) :
    w.isExclusive = false ∧ s.bits.toNat = 65536 * w.number := by
  obtain ⟨hexclusive, hs⟩ := Option.ite_none_left_eq_some.mp h
  cases hs
  exact ⟨by simpa using hexclusive, toNat_stampBits w.state⟩

/-- What a step does to the number. -/
inductive Numbering (w w' : Stamped) : Prop
  | same : w'.number = w.number → Numbering w w'
  | take : w.isExclusive = false → w'.isExclusive = true → w'.number = w.number + 1 →
      Numbering w w'
  | give : w.isExclusive = true → w'.isExclusive = false →
      w'.number = (w.number + 1) % 2 ^ 48 → Numbering w w'

variable {w : Stamped} {ps : List Place} {i : Nat} {p : Place}

theorem Numbering.join (hroom : w.state.toNat % 131072 < 65535) :
    Numbering w { w with state := w.state + 1 } := by
  have hnat : (w.state + 1).toNat = (w.state.toNat + 1) % 2 ^ 64 := UInt64.toNat_add ..
  have hword := w.state.toNat_lt
  refine .same ?_
  simp only [number, hnat]
  omega

theorem Numbering.claim (hfree : w.state.toNat % 131072 = 0) :
    Numbering w { w with state := w.state + exclusiveBit } := by
  have hnat : (w.state + exclusiveBit).toNat = (w.state.toNat + 65536) % 2 ^ 64 :=
    UInt64.toNat_add ..
  have hword := w.state.toNat_lt
  have hnext : ({ w with state := w.state + exclusiveBit } : Stamped).number = w.number + 1 := by
    simp only [number, hnat]
    omega
  have heven : w.number % 2 = 0 := by
    unfold number
    omega
  refine .take ?_ ?_ hnext
  · rw [← Bool.not_eq_true, isExclusive_iff_number]
    omega
  · rw [isExclusive_iff_number, hnext]
    omega

theorem Fits.numbering_seek (h : Fits w ps) (hp : ps[i]? = some p) (m : Mode) (luck : Bool) :
    Numbering w (Stamped.seek m luck w p).1 := by
  cases p with
  | join seen =>
    simp only [Stamped.seek]
    split
    · rename_i hsame
      obtain rfl : w.state = seen := eq_of_beq (Bool.and_eq_true .. ▸ hsame).2
      exact .join (h.sound hp)
    · exact .same rfl
  | claim seen | queuedClaim seen =>
    simp only [Stamped.seek]
    split
    · rename_i hsame
      obtain rfl : w.state = seen := eq_of_beq hsame
      exact .claim (h.sound hp)
    · exact .same rfl
  | out => cases m <;> exact .same rfl
  | _ => exact .same rfl

theorem Fits.numbering_leave (h : Fits w ps) (hp : ps[i]? = some p) :
    Numbering w (Stamped.leave w p).1 := by
  have hcount := h.state
  have hapart := h.apart
  have hword := w.state.toNat_lt
  cases p with
  | shared =>
    have hpos : 0 < ps.countP Place.shares := countP_pos_of_getElem? hp rfl
    have hle : (1 : UInt64) ≤ w.state := by
      rw [UInt64.le_iff_toNat_le]
      show 1 ≤ w.state.toNat
      omega
    have hnat : (w.state - 1).toNat = w.state.toNat - 1 := UInt64.toNat_sub_of_le _ _ hle
    refine .same ?_
    simp only [Stamped.leave, number, hnat]
    omega
  | exclusive =>
    have hpos : 0 < ps.countP Place.owns := countP_pos_of_getElem? hp rfl
    have hnat : (w.state + exclusiveBit).toNat = (w.state.toNat + 65536) % 2 ^ 64 :=
      UInt64.toNat_add ..
    have hnext : (Stamped.leave w .exclusive).1.number = (w.number + 1) % 2 ^ 48 := by
      simp only [Stamped.leave, number, hnat]
      omega
    have hodd : w.number % 2 = 1 := by
      unfold number
      omega
    refine .give ((isExclusive_iff_number w).mpr hodd) ?_ hnext
    rw [← Bool.not_eq_true, isExclusive_iff_number, hnext]
    omega
  | _ => exact .same rfl

/-- While a thread is in exclusive mode the word says so. -/
theorem Fits.isExclusive (h : Fits w ps) (hp : ps[i]? = some p)
    (hholds : holds .exclusive p = true) : w.isExclusive = true := by
  have howns : p.owns = true := by
    cases p with
    | exclusive => rfl
    | _ => cases hholds
  have hcount := h.state
  have hapart := h.apart
  have hpos : 0 < ps.countP Place.owns := countP_pos_of_getElem? hp howns
  rw [isExclusive_iff]
  omega

/-! ## Waiting threads -/

/-- The thread is counted among those that wait for exclusive mode. -/
def Place.waits : Place → Bool
  | .queued | .queuedClaim _ | .delist => true
  | _ => false

/-- The threads that wait are counted. -/
def Waits (waiting : UInt32) (ps : List Place) : Prop :=
  waiting.toNat = ps.countP Place.waits % 2 ^ 32

variable {n : UInt32} {q : Place}

theorem waits_replicate (n : Nat) : Waits 0 (.replicate n .out) := by
  rw [Waits, List.countP_replicate, show Place.waits .out = false from rfl,
    if_neg Bool.false_ne_true]
  rfl

theorem Waits.move (h : Waits n ps) (hp : ps[i]? = some p) (hwaits : q.waits = p.waits) :
    Waits n (ps.set i q) := by
  have hset := countP_set_add Place.waits hp (b := q)
  rw [hwaits] at hset
  have hsame : (ps.set i q).countP Place.waits = ps.countP Place.waits := by omega
  rw [Waits, hsame]
  exact h

theorem Waits.enlist (h : Waits n ps) (hp : ps[i]? = some p) (hno : p.waits = false)
    (hyes : q.waits = true) : Waits (n + 1) (ps.set i q) := by
  have hset := countP_set_add Place.waits hp (b := q)
  have hcount : n.toNat = ps.countP Place.waits % 2 ^ 32 := h
  have hone : (1 : UInt32).toNat = 1 := rfl
  rw [hno, hyes, if_neg Bool.false_ne_true, if_pos rfl] at hset
  rw [Waits, UInt32.toNat_add, hone]
  omega

theorem Waits.delist (h : Waits n ps) (hp : ps[i]? = some p) (hyes : p.waits = true)
    (hno : q.waits = false) : Waits (n - 1) (ps.set i q) := by
  have hset := countP_set_add Place.waits hp (b := q)
  have hcount : n.toNat = ps.countP Place.waits % 2 ^ 32 := h
  have hone : (1 : UInt32).toNat = 1 := rfl
  rw [hno, hyes, if_neg Bool.false_ne_true, if_pos rfl] at hset
  rw [Waits, UInt32.toNat_sub, hone]
  omega

theorem Waits.seek (h : Waits w.waiting ps) (hp : ps[i]? = some p) (m : Mode) (luck : Bool) :
    Waits (Stamped.seek m luck w p).1.waiting (ps.set i (Stamped.seek m luck w p).2) := by
  rcases w with ⟨state, waiting⟩
  have h : Waits waiting ps := h
  cases p with
  | out =>
    cases m <;> simp only [Stamped.seek] <;> split <;> exact h.move hp rfl
  | peek | join | claim | queued | queuedClaim =>
    simp only [Stamped.seek]
    split <;> exact h.move hp rfl
  | enlist => exact h.enlist hp rfl rfl
  | delist => exact h.delist hp rfl rfl
  | shared | exclusive => exact h.move hp rfl

theorem Waits.leave (h : Waits w.waiting ps) (hp : ps[i]? = some p) :
    Waits (Stamped.leave w p).1.waiting (ps.set i (Stamped.leave w p).2) := by
  rcases w with ⟨state, waiting⟩
  have h : Waits waiting ps := h
  cases p <;> simp only [Stamped.leave] <;> exact h.move hp rfl

/-- With every thread outside, nobody holds the lock or waits for it. -/
theorem quiet_of_out (h : Fits w ps) (hwaits : Waits w.waiting ps)
    (hout : ∀ {i : Nat} {p : Place}, ps[i]? = some p → p = .out) : w.Quiet := by
  have hnone (f : Place → Bool) (hf : f .out = false) : ps.countP f = 0 := by
    rw [List.countP_eq_zero]
    intro p hp
    obtain ⟨i, hi⟩ := List.mem_iff_getElem?.mp hp
    rw [hout hi, hf]
    exact Bool.false_ne_true
  have hstate := h.state
  have hcount : w.waiting.toNat = ps.countP Place.waits % 2 ^ 32 := hwaits
  rw [hnone Place.shares rfl, hnone Place.owns rfl] at hstate
  rw [hnone Place.waits rfl] at hcount
  exact ⟨hstate, UInt32.toNat_inj.mp hcount⟩

end Growable.Lock.Stamped
