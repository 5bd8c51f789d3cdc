import Growable.Proofs.Lock.Solo
import Growable.Proofs.Threads

/-!
# One thread inside

A monitor keeps two threads from being inside at once. As for gates, the promise is said of the word
and of the places of all threads, and kept by each step: the bit of a mutex and of a spin lock
counts the threads inside, and a lock that its owner may take again knows its owner and how often it
has entered. Together with the promise to a thread by itself this is all that is asked of the
monitors an array takes from elsewhere.
-/

namespace Growable.Lock

/-- `Fits` relates the word to the places of all threads. -/
structure Monitor.Excludes (M : Monitor) (Fits : M.Word → List M.Place → Prop) : Prop where
  idle : ∀ n, Fits M.free (.replicate n M.outside)
  seek : ∀ {w : M.Word} {ps : List M.Place} {i : Nat} {p : M.Place}, Fits w ps →
    ps[i]? = some p → Fits (M.seek i w p).1 (ps.set i (M.seek i w p).2)
  leave : ∀ {w : M.Word} {ps : List M.Place} {i : Nat} {p : M.Place}, Fits w ps →
    ps[i]? = some p → 0 < M.depth p → Fits (M.leave w p).1 (ps.set i (M.leave w p).2)
  apart : ∀ {w : M.Word} {ps : List M.Place} {i j : Nat} {p q : M.Place}, Fits w ps → i ≠ j →
    ps[i]? = some p → ps[j]? = some q → 0 < M.depth p → M.depth q = 0
  outside : M.depth M.outside = 0
  enters : ∀ {w : M.Word} {ps : List M.Place} {i : Nat} {p : M.Place}, Fits w ps →
    ps[i]? = some p →
    M.depth (M.seek i w p).2 = M.depth p ∨ M.depth (M.seek i w p).2 = M.depth p + 1
  leaves : ∀ {w : M.Word} {ps : List M.Place} {i : Nat} {p : M.Place}, Fits w ps →
    ps[i]? = some p → 0 < M.depth p → M.depth (M.leave w p).2 + 1 = M.depth p

namespace Monitor

/-! ## One bit -/

/-- The bit is set for the one thread that is inside. -/
def Marks {P : Type} (inside : P → Bool) (taken : Bool) (ps : List P) : Prop :=
  ps.countP inside = if taken then 1 else 0

section

variable {P : Type} {inside : P → Bool} {taken : Bool} {ps : List P} {i j : Nat} {p q : P}

theorem marks_replicate (n : Nat) (h : inside p = false) :
    Marks inside false (.replicate n p) := by
  simp [Marks, List.countP_replicate, h]

/-- A thread moves without going in or out. -/
theorem Marks.move (h : Marks inside taken ps) (hp : ps[i]? = some p) (hq : inside q = inside p) :
    Marks inside taken (ps.set i q) := by
  have hset := countP_set_add inside hp (b := q)
  rw [hq] at hset
  unfold Marks at *
  omega

theorem Marks.set (h : Marks inside false ps) (hp : ps[i]? = some p) (hq : inside q = true) :
    Marks inside true (ps.set i q) := by
  have hset := countP_set_add inside hp (b := q)
  have hout : inside p = false := by
    rw [Marks, if_neg Bool.false_ne_true, List.countP_eq_zero] at h
    simpa using h p (List.mem_of_getElem? hp)
  rw [if_pos hq, hout, if_neg Bool.false_ne_true] at hset
  rw [Marks, if_neg Bool.false_ne_true] at h
  rw [Marks, if_pos rfl]
  omega

theorem Marks.clear (h : Marks inside taken ps) (hp : ps[i]? = some p) (hin : inside p = true)
    (hq : inside q = false) : Marks inside false (ps.set i q) := by
  have hset := countP_set_add inside hp (b := q)
  have hpos := countP_pos_of_getElem? hp hin
  rw [if_pos hin, hq, if_neg Bool.false_ne_true] at hset
  unfold Marks at *
  split at h
  · rw [if_neg Bool.false_ne_true]
    omega
  · omega

theorem Marks.apart (h : Marks inside taken ps) (hij : i ≠ j) (hp : ps[i]? = some p)
    (hq : ps[j]? = some q) (hin : inside p = true) : inside q = false := by
  have hone : ps.countP inside ≤ 1 := by
    unfold Marks at h
    split at h <;> omega
  cases hinside : inside q with
  | false => rfl
  | true => exact absurd (eq_of_countP_le_one hone hp hq hin hinside) hij

end

theorem excludes_mutex : mutex.Excludes (Marks id) where
  idle n := marks_replicate n rfl
  seek {w ps i p} h hp := by
    cases w with
    | true => exact h.move hp rfl
    | false => exact h.set hp rfl
  leave {w ps i p} h hp hin := by
    cases p with
    | true => exact h.clear hp rfl rfl
    | false => exact absurd hin (Nat.lt_irrefl 0)
  apart {w ps i j p q} h hij hp hq hin := by
    cases p with
    | true =>
      obtain rfl : q = false := h.apart hij hp hq rfl
      rfl
    | false => exact absurd hin (Nat.lt_irrefl 0)
  outside := rfl
  enters {w ps i p} h hp := by
    cases w with
    | true => exact .inl rfl
    | false =>
      cases p with
      | true => exact .inl rfl
      | false => exact .inr rfl
  leaves {w ps i p} _ _ hin := by
    cases p with
    | true => rfl
    | false => exact absurd hin (Nat.lt_irrefl 0)

/-- The thread is inside a spin lock. -/
def isInside : Spin.Place → Bool
  | .inside => true
  | _ => false

theorem excludes_spin : spin.Excludes (Marks isInside) where
  idle n := marks_replicate n rfl
  seek {w ps i p} h hp := by
    cases p with
    | out => cases w <;> exact h.move hp rfl
    | swap =>
      cases w with
      | true => exact h.move hp rfl
      | false => exact h.set hp rfl
    | inside => exact h.move hp rfl
  leave {w ps i p} h hp hin := by
    cases p with
    | inside => exact h.clear hp rfl rfl
    | out | swap => exact absurd hin (Nat.lt_irrefl 0)
  apart {w ps i j p q} h hij hp hq hin := by
    cases p with
    | inside =>
      have hout : isInside q = false := h.apart hij hp hq rfl
      cases q with
      | inside => cases hout
      | out | swap => rfl
    | out | swap => exact absurd hin (Nat.lt_irrefl 0)
  outside := rfl
  enters {w ps i p} _ _ := by
    cases p with
    | out => cases w <;> exact .inl rfl
    | swap =>
      cases w with
      | true => exact .inl rfl
      | false => exact .inr rfl
    | inside => exact .inl rfl
  leaves {w ps i p} _ _ hin := by
    cases p with
    | inside => rfl
    | out | swap => exact absurd hin (Nat.lt_irrefl 0)

/-! ## An owner -/

/-- How often each thread has entered, by the owner that the lock knows. -/
def timesOf (w : Option Owner) (i : Nat) : Nat :=
  match w with
  | none => 0
  | some o => if o.thread = i then o.times else 0

/-- The lock knows of every thread how often it has entered. -/
structure Knows (w : Option Owner) (ps : List Nat) : Prop where
  pos : ∀ o, w = some o → 0 < o.times
  times : ∀ {i p : Nat}, ps[i]? = some p → p = timesOf w i

variable {w : Option Owner} {ps : List Nat} {i j p q : Nat} {o : Owner}

/-- Any other thread than the owner is outside. -/
theorem timesOf_of_ne (h : o.thread ≠ i) : timesOf (some o) i = 0 := if_neg h

theorem timesOf_self (o : Owner) : timesOf (some o) o.thread = o.times := if_pos rfl

/-- The owner moves; the other threads are outside before and after. -/
theorem Knows.set {w' : Option Owner} (h : Knows w ps) (hp : ps[i]? = some p)
    (hpos : ∀ o, w' = some o → 0 < o.times) (hq : q = timesOf w' i)
    (hothers : ∀ j, j ≠ i → timesOf w' j = timesOf w j) : Knows w' (ps.set i q) := by
  refine ⟨hpos, ?_⟩
  intro j r hr
  rcases (getElem?_set_iff hp).mp hr with ⟨rfl, rfl⟩ | ⟨hji, hr'⟩
  · exact hq
  · exact (h.times hr').trans (hothers j hji).symm

theorem Knows.owner (h : Knows (some o) ps) (hp : ps[i]? = some p) (hin : 0 < p) :
    o.thread = i ∧ p = o.times := by
  have htimes := h.times hp
  by_cases hi : o.thread = i
  · rw [← hi, timesOf_self] at htimes
    exact ⟨hi, htimes⟩
  · rw [timesOf_of_ne hi] at htimes
    omega

theorem excludes_reentrant : reentrant.Excludes Knows where
  idle n := by
    refine ⟨?_, ?_⟩
    · intro o ho
      cases ho
    · intro i p hp
      obtain ⟨-, rfl⟩ := List.getElem?_eq_some_iff.mp hp
      simp [timesOf]
  seek {w ps i p} h hp := by
    cases w with
    | none =>
      refine h.set hp ?_ (timesOf_self ⟨i, 1⟩).symm ?_
      · rintro o ⟨⟩
        exact Nat.one_pos
      · intro j hji
        exact timesOf_of_ne (o := ⟨i, 1⟩) (Ne.symm hji)
    | some o =>
      have htimes := h.times hp
      simp only [reentrant]
      split
      · rename_i hi
        subst hi
        rw [timesOf_self] at htimes
        refine h.set hp ?_ ?_ ?_
        · rintro o' ⟨⟩
          exact Nat.succ_pos _
        · rw [htimes]
          exact (timesOf_self { o with times := o.times + 1 }).symm
        · intro j hji
          rw [timesOf_of_ne (Ne.symm hji)]
          exact timesOf_of_ne (o := { o with times := o.times + 1 }) (Ne.symm hji)
      · exact h.set hp h.pos htimes fun _ _ => rfl
  leave {w ps i p} h hp hin := by
    cases w with
    | none =>
      have htimes : p = 0 := h.times hp
      exact absurd htimes (Nat.pos_iff_ne_zero.mp hin)
    | some o =>
      obtain ⟨rfl, hp'⟩ : o.thread = i ∧ p = o.times := h.owner hp hin
      simp only [reentrant]
      split
      · rename_i hlast
        refine h.set hp ?_ ?_ ?_
        · rintro o' ⟨⟩
        · exact Nat.sub_eq_zero_of_le (hp' ▸ hlast)
        · intro j hji
          exact (timesOf_of_ne (Ne.symm hji)).symm
      · rename_i hmore
        refine h.set hp ?_ ?_ ?_
        · rintro o' ⟨⟩
          show 0 < o.times - 1
          omega
        · rw [hp']
          exact (timesOf_self { o with times := o.times - 1 }).symm
        · intro j hji
          rw [timesOf_of_ne (Ne.symm hji)]
          exact timesOf_of_ne (o := { o with times := o.times - 1 }) (Ne.symm hji)
  apart {w ps i j p q} h hij hp hq hin := by
    cases w with
    | none => exact h.times hq
    | some o =>
      obtain ⟨rfl, -⟩ := h.owner hp hin
      exact (h.times hq).trans (timesOf_of_ne hij)
  outside := rfl
  enters {w ps i p} h hp := by
    cases w with
    | none =>
      obtain rfl : p = 0 := h.times hp
      exact .inr rfl
    | some o =>
      simp only [reentrant]
      split
      · exact .inr rfl
      · exact .inl rfl
  leaves {w ps i p} h hp hin := by
    cases w with
    | none =>
      have htimes : p = 0 := h.times hp
      exact absurd htimes (Nat.pos_iff_ne_zero.mp hin)
    | some o => exact Nat.succ_pred_eq_of_pos hin

/-- What is asked of a monitor: threads are kept apart, and a thread by itself gets in and out. -/
structure Lawful (M : Monitor) : Prop where
  excludes : ∃ Fits, M.Excludes Fits
  solo : ∀ me, ∃ word place, M.Solo me word place

theorem lawful_mutex : mutex.Lawful :=
  ⟨⟨_, excludes_mutex⟩, fun me => ⟨_, _, solo_mutex me⟩⟩

theorem lawful_spin : spin.Lawful :=
  ⟨⟨_, excludes_spin⟩, fun me => ⟨_, _, solo_spin me⟩⟩

theorem lawful_reentrant : reentrant.Lawful :=
  ⟨⟨_, excludes_reentrant⟩, fun me => ⟨_, _, solo_reentrant me⟩⟩

end Monitor

/-- What is asked of the monitors an array takes from elsewhere. -/
structure Monitors.Lawful (L : Monitors) : Prop where
  mutex : L.mutex.Lawful
  reentrant : L.reentrant.Lawful

theorem Monitors.lawful_default : Monitors.Lawful {} :=
  ⟨Monitor.lawful_mutex, Monitor.lawful_reentrant⟩

end Growable.Lock
