import Growable.Proofs.Lock.Flagged

/-!
# Runs of the layout lock with flags

Threads that use the lock in any way a program can: they enter either mode, leave, get an index
without entering, and end, so that indices go from one thread to the next. In every run the words and
places fit, and what the lock promises follows for every moment.
-/

namespace Growable.Lock.Flagged

open Gate (Client)

/-- The places of all threads. -/
def places (p : Pool Flagged (Client .flagged)) : List Place := p.threads.toList.map Client.place

/-- What a thread is doing goes with where it stands. -/
def Stands (c : Client .flagged) : Prop :=
  match c.task with
  | .entering m => Toward m c.place
  | .attempting _ => False
  | .leaving => Gate.flagged.inside c.place = true
  | _ => True

/-- What is kept in every run. -/
structure Kept (p : Pool Flagged (Client .flagged)) : Prop where
  fits : Fits p.shared (places p)
  stands : ∀ {t : Nat} {c : Client .flagged}, p.threads[t]? = some c → Stands c

variable {p : Pool Flagged (Client .flagged)} {t : Nat} {c : Client .flagged}

theorem places_get? (h : p.threads[t]? = some c) : (places p)[t]? = some c.place := by
  rw [places, List.getElem?_map, Array.getElem?_toList, h]
  rfl

theorem places_put (p : Pool Flagged (Client .flagged)) (t : Nat) (w : Flagged)
    (c : Client .flagged) : places (p.put t w c) = (places p).set t c.place := by
  rw [places, places, Pool.toList_put, List.map_set]

theorem kept_idle (n : Nat) : Kept (Gate.idle .flagged n) := by
  refine ⟨?_, ?_⟩
  · have hplaces : places (Gate.idle .flagged n) = .replicate n (.out none) := by
      simp [places, Gate.idle]
    rw [hplaces]
    exact fits_replicate n
  · intro t c ht
    obtain ⟨-, rfl⟩ := Array.getElem?_eq_some_iff.mp ht
    simp [Gate.idle, Stands]

/-- A thread moves, and what is kept is kept for it. -/
theorem Kept.put (h : Kept p) (ht : p.threads[t]? = some c) {w : Flagged} {d : Client .flagged}
    (hfits : Fits w ((places p).set t d.place)) (hstands : Stands d) : Kept (p.put t w d) := by
  refine ⟨?_, ?_⟩
  · rw [places_put]
    exact hfits
  · intro u x hu
    rcases (Pool.getElem?_put_iff ht).mp hu with ⟨-, rfl⟩ | ⟨-, hu'⟩
    · exact hstands
    · exact h.stands hu'

theorem stands_start (hrest : c.rests = true) (r : Gate.Request Unit) :
    Stands (c.start r) ∧ (c.start r).place = c.place := by
  have hstay : Stands c := by
    unfold Client.rests at hrest
    unfold Stands
    cases htask : c.task <;> simp [htask] at hrest ⊢
  cases r with
  | enter m =>
    by_cases hout : Gate.flagged.outside c.place = true
    · simp only [Client.start, if_pos hout]
      exact ⟨Gate.excludes_flagged.outside m hout, trivial⟩
    · simp only [Client.start, if_neg hout]
      exact ⟨hstay, trivial⟩
  | attempt m =>
    by_cases hout : Gate.flagged.outside c.place = true
    · simp only [Client.start, if_pos hout]
      exact ⟨hstay, trivial⟩
    · simp only [Client.start, if_neg hout]
      exact ⟨hstay, trivial⟩
  | leave =>
    by_cases hinside : Gate.flagged.inside c.place = true
    · simp only [Client.start, if_pos hinside]
      exact ⟨hinside, trivial⟩
    · simp only [Client.start, if_neg hinside]
      exact ⟨hstay, trivial⟩
  | stamp | validate s => exact ⟨trivial, rfl⟩
  | enroll | retire =>
    by_cases hout : Gate.flagged.outside c.place = true
    · simp only [Client.start, if_pos hout]
      exact ⟨trivial, trivial⟩
    · simp only [Client.start, if_neg hout]
      exact ⟨hstay, trivial⟩

/-- One step of a thread keeps the word and the places fitting. -/
theorem Kept.step (h : Kept p) (ht : p.threads[t]? = some c) (luck : Bool) :
    Kept (p.put t (Client.step luck p.shared c).1 (Client.step luck p.shared c).2) := by
  have hp := places_get? ht
  have hstands := h.stands ht
  have hsame : Fits p.shared ((places p).set t c.place) := by
    rw [set_of_getElem? hp]
    exact h.fits
  rcases c with ⟨place, task⟩
  cases task with
  | rest last? => exact h.put ht hsame trivial
  | entering m =>
    have hway : Toward m place := hstands
    apply h.put ht (Gate.excludes_flagged.seek m luck h.fits hp hway)
    simp only [Client.step]
    split
    · exact trivial
    · rename_i hnot
      exact (Gate.excludes_flagged.toward m luck hway).resolve_left hnot
  | attempting m => cases hstands
  | leaving => exact h.put ht (h.fits.leave hp hstands) trivial
  | stamping => exact h.put ht hsame trivial
  | validating s => exact h.put ht hsame trivial
  | enrolling =>
    apply h.put ht (h.fits.enroll hp)
    simp only [Client.step]
    split <;> exact trivial
  | retiring => exact h.put ht (h.fits.retire hp) trivial

theorem Kept.act (h : Kept p) (turn : Turn (Gate.Request Unit)) :
    Kept ((Gate.client .flagged).act p turn) := by
  refine Machine.act_keeps h ?_ ?_ turn
  · intro i c r hc hrest
    obtain ⟨hstands, hplace⟩ := stands_start hrest r
    refine h.put hc ?_ hstands
    rw [show ((Gate.client .flagged).start r c).place = c.place from hplace,
      set_of_getElem? (places_get? hc)]
    exact h.fits
  · intro i c luck hc _
    exact h.step hc luck

theorem kept_run (n : Nat) (turns : List (Turn (Gate.Request Unit))) :
    Kept ((Gate.client .flagged).run (Gate.idle .flagged n) turns) :=
  Machine.Reaches.invariant (fun _ turn h => h.act turn) ⟨turns, rfl⟩ (kept_idle n)

/-! ## While the base is held exclusively -/

/-- No thread that holds the base in shared mode is beside one that holds it exclusively. -/
theorem Kept.not_mark (h : Kept p) (hexclusive : p.shared.base.isExclusive = true) {i : Nat} :
    (places p)[t]? ≠ some (.mark i) := by
  intro ht
  have hshares := countP_pos_of_getElem? (f := Stamped.Place.shares) (Fits.base_get? ht) rfl
  have hstate := h.fits.base.state
  have hapart := h.fits.base.apart
  rw [Stamped.isExclusive_iff] at hexclusive
  omega

theorem flag_leave (w : Flagged) (q : Place) {i : Nat} (hraised : q.raised? ≠ some i) :
    (leave w q).1.flag i = w.flag i := by
  cases q with
  | access j => exact flag_setFlag_of_ne _ (by rintro rfl; exact hraised rfl)
  | borrow j b =>
    rcases w with ⟨base, needToRecover, flags, blocks, roster⟩
    have hflags : (leave ⟨base, needToRecover, flags, blocks, roster⟩ (.borrow j b)).1.flags =
        flags := by cases b <;> rfl
    exact flag_congr hflags i
  | change index? =>
    rcases w with ⟨base, needToRecover, flags, blocks, roster⟩
    have hflags : (leave ⟨base, needToRecover, flags, blocks, roster⟩ (.change index?)).1.flags =
        flags := rfl
    exact flag_congr hflags i
  | _ => rfl

/-- Only a thread that has the base in shared mode takes a flag back that is turned over. -/
theorem flag_seek {w : Flagged} {q : Place} {i : Nat} (m : Mode) (luck : Bool)
    (hmark : q ≠ .mark i) (hflag : w.flag i = .change) : (seek m luck w q).1.flag i = .change := by
  cases q with
  | out index? =>
    cases m with
    | shared =>
      cases index? with
      | some j => exact hflag
      | none =>
        simp only [seek, enroll]
        split <;> exact (flag_congr rfl i).trans hflag
    | exclusive => exact hflag
  | raise j =>
    simp only [seek]
    split
    · rename_i hinactive
      have hij : j ≠ i := by
        rintro rfl
        rw [hflag] at hinactive
        cases hinactive
      rw [flag_setFlag_of_ne _ hij]
      exact hflag
    · exact hflag
  | mark j =>
    have hij : j ≠ i := by
      rintro rfl
      exact hmark rfl
    unfold seek
    rw [flag_setFlag_of_ne _ hij]
    exact hflag
  | block index? limit b =>
    simp only [seek]
    split
    · exact hflag
    · exact hflag
  | turn index? limit j =>
    simp only [seek]
    split
    · rename_i hinactive
      have hij : j ≠ i := by
        rintro rfl
        rw [hflag] at hinactive
        cases hinactive
      rw [flag_setFlag_of_ne _ hij]
      exact hflag
    · exact hflag
    · exact hflag
  | _ => exact (flag_congr rfl i).trans hflag

theorem flag_enroll {w : Flagged} (q : Place) (i : Nat) : (enroll w q).1.flag i = w.flag i := by
  cases q with
  | out index? =>
    cases index? with
    | some j => rfl
    | none =>
      simp only [enroll]
      split <;> exact flag_congr rfl i
  | _ => exact flag_congr rfl i

theorem flag_retire {w : Flagged} (q : Place) (i : Nat) : (retire w q).1.flag i = w.flag i := by
  cases q with
  | out index? => cases index? <;> exact flag_congr rfl i
  | _ => rfl

/-- A flag that is turned over stays so in every turn taken while the base is held exclusively. -/
theorem Kept.flag_act (h : Kept p) (hexclusive : p.shared.base.isExclusive = true) {i : Nat}
    (hflag : p.shared.flag i = .change) (turn : Turn (Gate.Request Unit)) :
    ((Gate.client .flagged).act p turn).shared.flag i = .change := by
  refine Machine.act_keeps (P := fun p : Pool Flagged (Client .flagged) =>
    p.shared.flag i = .change) hflag ?_ ?_ turn
  · intro t c r _ _
    exact hflag
  · intro t c luck ht _
    have hp := places_get? ht
    have hmark : c.place ≠ .mark i := by
      intro hplace
      exact h.not_mark hexclusive (hplace ▸ hp)
    rcases c with ⟨place, task⟩
    cases task with
    | entering m => exact flag_seek m luck hmark hflag
    | attempting m => cases h.stands ht
    | leaving =>
      have hraised : place.raised? ≠ some i := by
        intro hraised
        rw [h.fits.minded.raised hp hraised] at hflag
        cases hflag
      exact (flag_leave _ _ hraised).trans hflag
    | enrolling => exact (flag_enroll _ _).trans hflag
    | retiring => exact (flag_retire _ _).trans hflag
    | _ => exact hflag

theorem Kept.flag_run (h : Kept p) {i : Nat} (hflag : p.shared.flag i = .change)
    (turns : List (Turn (Gate.Request Unit)))
    (hexclusive : ∀ k < turns.length,
      ((Gate.client .flagged).run p (turns.take k)).shared.base.isExclusive = true) :
    ((Gate.client .flagged).run p turns).shared.flag i = .change := by
  induction turns generalizing p with
  | nil => exact hflag
  | cons turn turns ih =>
    have hnow : p.shared.base.isExclusive = true := hexclusive 0 (Nat.succ_pos _)
    apply ih (h.act turn) (h.flag_act hnow hflag turn)
    intro k hk
    exact hexclusive (k + 1) (Nat.succ_lt_succ hk)

/-! ## In every run -/

/-- However many threads use the lock, and whatever they do in whichever order: a granted change is
never beside a granted access or another granted change, it finds every flag turned over, and a flag
that is turned over stays so for as long as the base is held exclusively. -/
theorem run_excludes (n : Nat) (turns : List (Turn (Gate.Request Unit))) :
    let p := (Gate.client .flagged).run (Gate.idle .flagged n) turns
    (∀ (t u : Nat) (c d : Client .flagged), t ≠ u →
      p.threads[t]? = some c → p.threads[u]? = some d →
      Gate.flagged.holds .exclusive c.place = true →
      Gate.flagged.holds .shared d.place = false ∧
        Gate.flagged.holds .exclusive d.place = false) ∧
    (∀ (t : Nat) (c : Client .flagged), p.threads[t]? = some c →
      Gate.flagged.holds .exclusive c.place = true →
      Gate.flagged.holds .shared c.place = false ∧ ∀ i, p.shared.flag i = .change) ∧
    (∀ i more, p.shared.flag i = .change →
      (∀ k < more.length,
        ((Gate.client .flagged).run p (more.take k)).shared.base.isExclusive = true) →
      ((Gate.client .flagged).run p more).shared.flag i = .change) := by
  intro p
  have hkept : Kept p := kept_run n turns
  refine ⟨?_, ?_, ?_⟩
  · intro t u c d htu ht hu hholds
    have hinside := hkept.fits.apart htu (places_get? ht) (places_get? hu) hholds
    simpa [Gate.inside] using hinside
  · intro t c ht hholds
    have hp := places_get? ht
    rcases c with ⟨place, task⟩
    cases place with
    | change index? => exact ⟨rfl, hkept.fits.flag_of_change hp⟩
    | _ => cases hholds
  · intro i more hflag hexclusive
    exact hkept.flag_run hflag more hexclusive

end Growable.Lock.Flagged
