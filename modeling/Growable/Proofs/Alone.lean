import Growable.Machine

/-!
# A thread by itself

What a call comes to when no other thread moves meanwhile. The steps such a thread takes are
bounded, since a call by itself is granted a number of steps: `perform_of_goes` turns a bound that
fits into the outcome of the call.
-/

namespace Growable.Machine

variable {σ τ κ ρ : Type} {m : Machine σ τ κ ρ} {me : Nat}

/-- A thread by itself gets from the first state to the second in at most this many steps, and is
under way before each of them. -/
inductive Goes (m : Machine σ τ κ ρ) (me : Nat) : Nat → σ × τ → σ × τ → Prop
  | refl (n : Nat) (a : σ × τ) : Goes m me n a a
  | step {n : Nat} {a b : σ × τ} : m.rests a.2 = false → Goes m me n (m.step me true a.1 a.2) b →
      Goes m me (n + 1) a b

theorem Goes.one {a b : σ × τ} (h : m.rests a.2 = false) (hb : m.step me true a.1 a.2 = b) :
    Goes m me 1 a b := by
  subst hb
  exact .step h (.refl _ _)

theorem Goes.next {n : Nat} {a b c : σ × τ} (h : m.rests a.2 = false)
    (hb : m.step me true a.1 a.2 = b) (hbc : Goes m me n b c) : Goes m me (n + 1) a c := by
  subst hb
  exact .step h hbc

theorem Goes.mono {n k : Nat} {a b : σ × τ} (h : Goes m me n a b) (hk : n ≤ k) : Goes m me k a b := by
  induction h generalizing k with
  | refl n a => exact .refl k a
  | step hrest _ ih =>
    obtain ⟨k, rfl⟩ : ∃ j, k = j + 1 := ⟨k - 1, by omega⟩
    exact .step hrest (ih (by omega))

theorem Goes.trans {n k : Nat} {a b c : σ × τ} (hab : Goes m me n a b) (hbc : Goes m me k b c) :
    Goes m me (n + k) a c := by
  induction hab with
  | refl n a => exact hbc.mono (Nat.le_add_left k n)
  | step hrest _ ih =>
    rw [Nat.add_right_comm]
    exact .step hrest (ih hbc)

/-- Fuel beyond the steps that lead to rest is not used. -/
theorem alone_of_goes {n fuel : Nat} {a b : σ × τ} (h : Goes m me n a b) (hb : m.rests b.2 = true)
    (hn : n ≤ fuel) : m.alone me fuel a.1 a.2 = b := by
  induction h generalizing fuel with
  | refl n a =>
    cases fuel with
    | zero => rfl
    | succ fuel => simp [alone, hb]
  | step hrest _ ih =>
    obtain ⟨fuel, rfl⟩ : ∃ j, fuel = j + 1 := ⟨fuel - 1, by omega⟩
    have hrun := ih hb (by omega : _ ≤ fuel)
    simpa [alone, hrest] using hrun

/-- The outcome of a call by a thread by itself. -/
theorem perform_of_goes {n fuel : Nat} {c : κ} {s : σ} {t : τ} {b : σ × τ}
    (h : Goes m me n (s, m.start c t) b) (hb : m.rests b.2 = true) (hn : n ≤ fuel) :
    m.perform me fuel c s t = b :=
  alone_of_goes h hb hn

end Growable.Machine
