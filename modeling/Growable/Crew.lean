import Growable.Machine

/-!
# Crews

A crew is a pool of threads together with what each thread is to do: whenever a thread rests, its
program hears the answer to the last call and says what comes next. The threads take their turns
round and round until every program has stopped.
-/

namespace Growable

/-- What a thread is to do next. -/
inductive Order (κ : Type) where
  /-- To perform a call. -/
  | call (c : κ)
  /-- To rest for a turn. -/
  | pause
  /-- To stop for good. -/
  | stop

/-- What every thread of a crew does. The threads share the board `β`, and each has a memory `ω`. -/
structure Program (β ω κ ρ : Type) where
  next : (me : Nat) → β → ω → Option ρ → β × ω × Order κ

/-- What a thread of a crew remembers. -/
structure Worker (ω : Type) where
  memory : ω
  stopped : Bool := false

/-- Threads that follow a program. -/
structure Crew (σ τ β ω : Type) where
  pool : Pool σ τ
  board : β
  workers : Array (Worker ω)

namespace Crew

variable {σ τ κ ρ β ω : Type}

/-- One turn of a thread: a step of its call, or the order for what comes next. -/
def turn (m : Machine σ τ κ ρ) (p : Program β ω κ ρ) (c : Crew σ τ β ω) (i : Nat) : Crew σ τ β ω :=
  match c.workers[i]?, c.pool.threads[i]? with
  | some w, some t =>
    if w.stopped then c
    else if m.rests t then
      match p.next i c.board w.memory (m.reply? t) with
      | (board, memory, order) =>
        { board
          workers :=
            c.workers.setIfInBounds i { memory, stopped := order matches .stop }
          pool :=
            match order with
            | .call q => m.act c.pool (.call i q)
            | _ => c.pool }
    else { c with pool := m.act c.pool (.step i true) }
  | _, _ => c

/-- Every thread takes one turn, the first thread first. -/
def sweep (m : Machine σ τ κ ρ) (p : Program β ω κ ρ) (c : Crew σ τ β ω) : Crew σ τ β ω :=
  (List.range c.workers.size).foldl (turn m p) c

/-- The crew after at most `fuel` sweeps, or once every program has stopped. -/
def drive (m : Machine σ τ κ ρ) (p : Program β ω κ ρ) : (fuel : Nat) → Crew σ τ β ω → Crew σ τ β ω
  | 0, c => c
  | fuel + 1, c => if c.workers.all (·.stopped) then c else drive m p fuel (sweep m p c)

end Crew

end Growable
