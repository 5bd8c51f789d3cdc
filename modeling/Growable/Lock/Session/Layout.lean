import Growable.Lock.Layout
import Growable.Lock.Session

/-!
# Sessions at a layout lock

A script of steps at one layout lock that protects an integer.
-/

namespace Growable.Lock.Session.Layout

/-- A step of the script. -/
inductive Step where
  /-- Takes access; the value. -/
  | access (id : Nat)
  | tryAccess (id : Nat)
  /-- The value, through a guard. -/
  | get (id : Nat)
  /-- Takes a change. -/
  | change (id : Nat)
  /-- Adds through the guard of a change. -/
  | add (id : Nat) (d : Int)
  | release (id : Nat)
  /-- Adds without the lock, as its only user. -/
  | getMut (d : Int)
  /-- A thread that changes the value. -/
  | queueChange (d : Int)
  /-- A thread that looks at the value. It sees the value after the one change there is. -/
  | queueAccess
  deriving DecidableEq, Repr

/-- Takes a step, before the queue is let through. -/
def take (s : Session .layout) : Step → Session .layout × Outcome
  | .access id =>
    match s.enter (some id) .shared with
    | (s, .done) => (s, .number s.value)
    | r => r
  | .tryAccess id =>
    let (s, r) := s.attempt (some id) .shared
    (s, .truth r)
  | .get id =>
    match s.guard? id with
    | some _ => (s, .number s.value)
    | none => (s, .nothing)
  | .change id => s.enter (some id) .exclusive
  | .add id d =>
    match s.guard? id with
    | some c =>
      if Layout.holds .exclusive c.place then ({ s with value := s.value + d }, .truth true)
      else (s, .truth false)
    | none => (s, .truth false)
  | .release id =>
    let (s, r) := s.release id
    (s, .truth r)
  | .getMut d =>
    if s.guards.isEmpty then ({ s with value := s.value + d }, .number (s.value + d))
    else (s, .wouldBlock)
  | .queueChange d =>
    if s.queue.any (·.1 == .look) then (s, .wouldBlock) else (s.enqueue (.change d), .done)
  | .queueAccess =>
    if s.queuedChanges + (if s.isHeld .exclusive then 1 else 0) = 1 then (s.enqueue .look, .done)
    else (s, .wouldBlock)

/-- Takes a step and lets the queue through if nobody stays inside. -/
def step (s : Session .layout) (x : Step) : Session .layout × Outcome × Settled :=
  let (s, r) := take s x
  let (s, settled) := s.settle
  (s, r, settled)

end Growable.Lock.Session.Layout
