import Growable.Proofs.Lock.Exclusion

/-!
# Where a thread stands

A thread that works under a gate stands where its task says: outside, on the way into a mode, or in
it. A machine whose steps go through the gate keeps that, whatever else its threads do, so what the
gate promises of places is a promise about tasks: while one thread is in exclusive mode no other is
inside.
-/

namespace Growable.Lock

/-! ## Stances -/

/-- How a task stands to the gate. -/
inductive Stance where
  | outside
  | toward (m : Mode)
  | holding (m : Mode)
  /-- In either mode. -/
  | inside
  deriving DecidableEq

namespace Stance

/-- The task is done in one of the modes. -/
def isInside : Stance → Bool
  | holding _ | inside => true
  | _ => false

/-- A step that does not concern the gate may lead from the one stance to the other. -/
def Allows : Stance → Stance → Prop
  | outside, outside | outside, toward _ => True
  | holding m, holding m' => m = m'
  | holding _, inside => True
  | _, _ => False

/-- A place that goes with a stance. -/
def Fits {G : Gate} (Toward : Mode → G.Place → Prop) (p : G.Place) : Stance → Prop
  | outside => G.outside p = true
  | toward m => Toward m p
  | holding m => G.holds m p = true
  | inside => G.inside p = true

variable {G : Gate} {Agree : G.Word → List G.Place → Prop} {Toward : Mode → G.Place → Prop}
  {a b : Stance} {q : G.Place}

theorem Fits.inside (h : a.Fits Toward q) (ha : a.isInside = true) : G.inside q = true := by
  cases a with
  | outside | toward => cases ha
  | holding m => exact Gate.Excludes.inside_of_holds h
  | inside => exact h

theorem Fits.go (hG : G.Excludes Agree Toward) (h : a.Fits Toward q) (hab : a.Allows b) :
    b.Fits Toward q := by
  cases a with
  | outside =>
    cases b with
    | outside => exact h
    | toward m => exact hG.outside m h
    | _ => cases hab
  | holding m =>
    cases b with
    | holding m' =>
      have hm : m = m' := hab
      subst hm
      exact h
    | inside => exact Gate.Excludes.inside_of_holds h
    | _ => cases hab
  | _ => cases b <;> cases hab

end Stance

/-- What a step does to the word, to the place of its thread and to the stance of its task. -/
inductive Gating {G : Gate} (luck : Bool) (w : G.Word) (p : G.Place) (a : Stance) :
    G.Word → G.Place → Stance → Prop
  | go {b : Stance} : a.Allows b → Gating luck w p a w p b
  | enter (m : Mode) : a = .toward m →
    Gating luck w p a (G.seek m luck w p).1 (G.seek m luck w p).2
      (if G.holds m (G.seek m luck w p).2 then .holding m else .toward m)
  | leave {b : Stance} : a.isInside = true → Stance.Allows .outside b →
    Gating luck w p a (G.leave w p).1 (G.leave w p).2 b

/-- The word and the place change only where a thread asks for a mode, or gives one back. -/
theorem Gating.moves {G : Gate} {luck : Bool} {w w' : G.Word} {p p' : G.Place} {a b : Stance}
    (h : Gating luck w p a w' p' b) :
    w' = w ∧ p' = p ∨
      (∃ m, a = .toward m ∧ w' = (G.seek m luck w p).1 ∧ p' = (G.seek m luck w p).2) ∨
      a.isInside = true ∧ w' = (G.leave w p).1 ∧ p' = (G.leave w p).2 := by
  cases h with
  | go => exact .inl ⟨rfl, rfl⟩
  | enter m htoward => exact .inr (.inl ⟨m, htoward, rfl, rfl⟩)
  | leave hinside => exact .inr (.inr ⟨hinside, rfl, rfl⟩)

/-! ## Machines under a gate -/

/-- What of a machine's state concerns a gate. -/
structure View (G : Gate) (σ τ : Type) where
  word : σ → G.Word
  place : τ → G.Place
  stance : τ → Stance

namespace View

variable {G : Gate} {σ τ κ ρ : Type} (v : View G σ τ)

/-- The places of all threads. -/
def places (p : Pool σ τ) : List G.Place := p.threads.toList.map v.place

/-- Every step of the machine goes through the gate. -/
structure Follows (m : Machine σ τ κ ρ) : Prop where
  start : ∀ (c : κ) {t : τ}, m.rests t = true →
    v.place (m.start c t) = v.place t ∧ (v.stance t).Allows (v.stance (m.start c t))
  step : ∀ (me : Nat) (luck : Bool) (s : σ) {t : τ}, m.rests t = false →
    Gating luck (v.word s) (v.place t) (v.stance t) (v.word (m.step me luck s t).1)
      (v.place (m.step me luck s t).2) (v.stance (m.step me luck s t).2)

/-- The word fits the places, and the places fit the tasks. -/
structure Orderly (Fits : G.Word → List G.Place → Prop) (Toward : Mode → G.Place → Prop)
    (p : Pool σ τ) : Prop where
  fits : Fits (v.word p.shared) (v.places p)
  stands : ∀ {i : Nat} {t : τ}, p.threads[i]? = some t →
    (v.stance t).Fits Toward (v.place t)

variable {v} {Fits : G.Word → List G.Place → Prop} {Toward : Mode → G.Place → Prop}
  {p : Pool σ τ} {i j : Nat} {t u : τ} {m : Machine σ τ κ ρ}

theorem places_get? (h : p.threads[i]? = some t) : (v.places p)[i]? = some (v.place t) := by
  rw [places, List.getElem?_map, Array.getElem?_toList, h]
  rfl

theorem places_put (p : Pool σ τ) (i : Nat) (s : σ) (t : τ) :
    v.places (p.put i s t) = (v.places p).set i (v.place t) := by
  rw [places, places, Pool.toList_put, List.map_set]

theorem orderly_idle (hG : G.Excludes Fits Toward) {s : σ} {t : τ} (hword : v.word s = G.free)
    (hplace : v.place t = G.fresh) (hstance : v.stance t = .outside) (n : Nat) :
    v.Orderly Fits Toward ⟨s, .replicate n t⟩ := by
  constructor
  · have hplaces : v.places ⟨s, .replicate n t⟩ = .replicate n G.fresh := by
      simp [places, hplace]
    rw [hplaces, hword]
    exact hG.idle n
  · intro i u hu
    obtain ⟨hlt, hget⟩ := Array.getElem?_eq_some_iff.mp hu
    obtain rfl : t = u := by simpa using hget
    rw [hstance, hplace]
    exact hG.fresh

namespace Orderly

/-- While one thread is in exclusive mode no other is inside. -/
theorem apart (hG : G.Excludes Fits Toward) (h : v.Orderly Fits Toward p) (hij : i ≠ j)
    (hi : p.threads[i]? = some t) (hj : p.threads[j]? = some u)
    (hexclusive : v.stance t = .holding .exclusive) : (v.stance u).isInside = false := by
  have hholds : G.holds .exclusive (v.place t) = true := by
    have hstands := h.stands hi
    rw [hexclusive] at hstands
    exact hstands
  have hout := hG.apart h.fits hij (places_get? hi) (places_get? hj) hholds
  rw [Bool.eq_false_iff]
  intro hinside
  rw [(h.stands hj).inside hinside] at hout
  cases hout

theorem put (h : v.Orderly Fits Toward p) (hi : p.threads[i]? = some t) {s : σ}
    (hfits : Fits (v.word s) ((v.places p).set i (v.place u)))
    (hstands : (v.stance u).Fits Toward (v.place u)) : v.Orderly Fits Toward (p.put i s u) := by
  constructor
  · rw [places_put]
    exact hfits
  · intro j x hj
    rcases (Pool.getElem?_put_iff hi).mp hj with ⟨-, rfl⟩ | ⟨-, hj'⟩
    · exact hstands
    · exact h.stands hj'

theorem step (hG : G.Excludes Fits Toward) (h : v.Orderly Fits Toward p)
    (hi : p.threads[i]? = some t) {s : σ} {luck : Bool}
    (hgating : Gating luck (v.word p.shared) (v.place t) (v.stance t) (v.word s) (v.place u)
      (v.stance u)) : v.Orderly Fits Toward (p.put i s u) := by
  have hp : (v.places p)[i]? = some (v.place t) := places_get? hi
  have hstands := h.stands hi
  apply h.put hi
  all_goals
    generalize v.word s = w, v.place u = q, v.stance u = b at hgating
    generalize v.stance t = a at hgating hstands
  · cases hgating with
    | go =>
      rw [set_of_getElem? hp]
      exact h.fits
    | enter m htoward =>
      rw [htoward] at hstands
      exact hG.seek m luck h.fits hp hstands
    | leave hinside => exact hG.leave h.fits hp (hstands.inside hinside)
  · cases hgating with
    | go hallows => exact hstands.go hG hallows
    | enter m htoward =>
      rw [htoward] at hstands
      split
      · rename_i hholds
        exact hholds
      · rename_i hnot
        exact (hG.toward m luck hstands).resolve_left hnot
    | leave hinside hnext =>
      have hout : Stance.outside.Fits Toward (G.leave (v.word p.shared) (v.place t)).2 :=
        hG.left (hstands.inside hinside)
      exact hout.go hG hnext

/-- What fits keeps fitting, turn by turn. -/
theorem act (hG : G.Excludes Fits Toward) (hfollows : v.Follows m) (h : v.Orderly Fits Toward p)
    (turn : Turn κ) : v.Orderly Fits Toward (m.act p turn) := by
  refine Machine.act_keeps h ?_ ?_ turn
  · intro i t c hi hrest
    obtain ⟨hplace, hallows⟩ := hfollows.start c hrest
    refine h.put hi ?_ ?_
    · rw [hplace, set_of_getElem? (places_get? hi)]
      exact h.fits
    · rw [hplace]
      exact (h.stands hi).go hG hallows
  · intro i t luck hi hbusy
    exact h.step hG hi (hfollows.step i luck p.shared hbusy)

end Orderly

end View

end Growable.Lock
