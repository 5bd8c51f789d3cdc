/-!
# Threads that take turns

A machine is a program run by any number of threads over one shared state, written as single
atomic steps. Which thread moves next is never the machine's choice: a run is given by a list of
turns, and every list of turns is a run. One and the same machine is run alone by a container's
one-call functions, side by side with others by a workload, and under all schedules at once by a
statement about runs.

A thread is always in one of two situations: it rests, and may be handed its next call, or a call
is under way and it may take its next step.
-/

namespace Growable

/-- A program for threads with local state `τ` over a shared state `σ`, called with `κ` and answering
with `ρ`. -/
structure Machine (σ τ κ ρ : Type) where
  /-- Hands a resting thread its next call. -/
  start : κ → τ → τ
  /-- One atomic step of the thread numbered `me`. `luck` is false where a compare-and-exchange
  that may fail without a cause does so. -/
  step : (me : Nat) → (luck : Bool) → σ → τ → σ × τ
  /-- No call is under way. -/
  rests : τ → Bool
  /-- The answer to the last call, while a thread rests after one. -/
  reply? : τ → Option ρ

/-- Threads and the state they share. -/
structure Pool (σ τ : Type) where
  shared : σ
  threads : Array τ

/-- What happens next in a run. -/
inductive Turn (κ : Type) where
  /-- A thread is handed a call, if it rests. -/
  | call (thread : Nat) (c : κ)
  /-- A thread takes a step, if a call is under way. -/
  | step (thread : Nat) (luck : Bool)
  deriving Repr

namespace Machine

variable {σ τ κ ρ : Type}

/-- The pool after one turn. -/
def act (m : Machine σ τ κ ρ) (p : Pool σ τ) : Turn κ → Pool σ τ
  | .call i c => { p with threads := p.threads.modify i fun t => if m.rests t then m.start c t else t }
  | .step i luck =>
    if h : i < p.threads.size then
      if m.rests p.threads[i] then p
      else
        let r := m.step i luck p.shared p.threads[i]
        ⟨r.1, p.threads.set i r.2⟩
    else p

/-- The pool after a list of turns. -/
def run (m : Machine σ τ κ ρ) (p : Pool σ τ) (turns : List (Turn κ)) : Pool σ τ :=
  turns.foldl m.act p

/-- Some list of turns leads from one pool to the other. -/
def Reaches (m : Machine σ τ κ ρ) (p q : Pool σ τ) : Prop :=
  ∃ turns, m.run p turns = q

/-- One thread moves by itself, until it rests or has taken `fuel` steps. -/
def alone (m : Machine σ τ κ ρ) (me : Nat) : (fuel : Nat) → σ → τ → σ × τ
  | 0, s, t => (s, t)
  | fuel + 1, s, t =>
    if m.rests t then (s, t)
    else
      let r := m.step me true s t
      alone m me fuel r.1 r.2

/-- One thread performs a call by itself, in at most `fuel` steps. -/
def perform (m : Machine σ τ κ ρ) (me fuel : Nat) (c : κ) (s : σ) (t : τ) : σ × τ :=
  m.alone me fuel s (m.start c t)

theorem run_nil (m : Machine σ τ κ ρ) (p : Pool σ τ) : m.run p [] = p := rfl

theorem run_append (m : Machine σ τ κ ρ) (p : Pool σ τ) (a b : List (Turn κ)) :
    m.run p (a ++ b) = m.run (m.run p a) b := List.foldl_append

/-- What every turn keeps, every run keeps. -/
theorem Reaches.invariant {m : Machine σ τ κ ρ} {Inv : Pool σ τ → Prop}
    (keep : ∀ p turn, Inv p → Inv (m.act p turn)) {p q : Pool σ τ} (h : m.Reaches p q)
    (hp : Inv p) : Inv q := by
  obtain ⟨turns, rfl⟩ := h
  induction turns generalizing p with
  | nil => exact hp
  | cons turn turns ih => exact ih (keep p turn hp)

end Machine

end Growable
