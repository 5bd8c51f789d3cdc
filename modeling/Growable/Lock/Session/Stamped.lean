import Growable.Crew
import Growable.Lock.Session
import Growable.Lock.Stamped

/-!
# Sessions at a stamped lock

A script of steps at one stamped lock, and a workload of writers and readers that checks that
nobody sees a half-written pair of words.
-/

namespace Growable.Lock.Session

/-- A stamped lock with the threads at it, and the stamps taken so far. -/
structure Stamped where
  lock : Session .stamped := {}
  stamps : List (Nat × Lock.Stamped.Stamp) := []

namespace Stamped

/-- A step of the script. -/
inductive Step where
  /-- Takes a stamp and keeps it under a name. -/
  | optimistic (name : Nat)
  | validate (name : Nat)
  /-- Compares two stamps. -/
  | same (a b : Nat)
  | read (id : Nat)
  | tryRead (id : Nat)
  | write (id : Nat)
  | tryWrite (id : Nat)
  | release (id : Nat)
  /-- Tries for shared mode so often, for guards without a name. -/
  | readMany (n : Nat)
  /-- Lets the guards without a name out. -/
  | releaseMany
  | queueWrite
  | queueRead
  deriving DecidableEq, Repr

/-- Tries for shared mode `n` times; how many succeeded. -/
def readMany (s : Session .stamped) : (n : Nat) → Session .stamped × Nat
  | 0 => (s, 0)
  | n + 1 =>
    let (s, ok) := s.attempt none .shared
    let (s, count) := readMany s n
    (s, if ok then count + 1 else count)

/-- Takes a step, before the queue is let through. -/
def take (s : Stamped) : Step → Stamped × Outcome
  | .optimistic name =>
    match s.lock.word.stamp? with
    | some stamp =>
      ({ s with stamps := (name, stamp) :: s.stamps }, .number stamp.version.toNat)
    | none => (s, .nothing)
  | .validate name =>
    match s.stamps.lookup name with
    | some stamp => (s, .truth (s.lock.word.valid stamp))
    | none => (s, .nothing)
  | .same a b => (s, .truth (s.stamps.lookup a == s.stamps.lookup b))
  | .read id =>
    let (lock, r) := s.lock.enter (some id) .shared
    ({ s with lock }, r)
  | .tryRead id =>
    let (lock, r) := s.lock.attempt (some id) .shared
    ({ s with lock }, .truth r)
  | .write id =>
    let (lock, r) := s.lock.enter (some id) .exclusive
    ({ s with lock }, r)
  | .tryWrite id =>
    let (lock, r) := s.lock.attempt (some id) .exclusive
    ({ s with lock }, .truth r)
  | .release id =>
    let (lock, r) := s.lock.release id
    ({ s with lock }, .truth r)
  | .readMany n =>
    let (lock, count) := readMany s.lock n
    ({ s with lock }, .number count)
  | .releaseMany => ({ s with lock := s.lock.releaseAll (·.isNone) }, .done)
  | .queueWrite => ({ s with lock := s.lock.enqueue (.change 0) }, .done)
  | .queueRead =>
    if s.lock.isHeld .exclusive && s.lock.queuedChanges == 0 then
      ({ s with lock := s.lock.enqueue .look }, .done)
    else (s, .wouldBlock)

/-- Takes a step and lets the queue through if nobody stays inside; how many threads of the queue
came through. -/
def step (s : Stamped) (x : Step) : Stamped × Outcome × Nat :=
  let (s, r) := s.take x
  let (lock, settled) := s.lock.settle
  ({ s with lock }, r, settled.changes + settled.seen.length)

/-! ## Writers and readers -/

/-- Two words that writers keep equal, and how often a reader saw them differ. -/
structure Words where
  first : Nat := 0
  second : Nat := 0
  torn : Nat := 0

/-- What a reader or a writer is at. -/
inductive Duty where
  /-- Starts its next turn. -/
  | start
  /-- A writer inside has raised the first word. -/
  | raised
  /-- Leaves, and starts its next turn then. -/
  | left
  /-- A reader inside has seen the first word. -/
  | seen (first : Nat)
  /-- A reader has asked for a stamp. -/
  | stamped
  /-- A reader has seen the first word under a stamp. -/
  | stampedSeen (s : Lock.Stamped.Stamp) (first : Nat)
  /-- A reader has asked whether its stamp is valid. -/
  | validated (first second : Nat)

/-- What a thread remembers. -/
structure Memory where
  writes : Bool
  /-- Turns left. -/
  left : Nat
  duty : Duty := .start

/-- A mismatch counts as one torn read. -/
def Words.check (w : Words) (first second : Nat) : Words :=
  if first = second then w else { w with torn := w.torn + 1 }

/-- What a thread does after the answer to its last request. A reader takes the lock and stamps in
turn. -/
def next (_ : Nat) (w : Words) (m : Memory) (reply? : Option (Gate.Reply Lock.Stamped.Stamp)) :
    Words × Memory × Order (Gate.Request Lock.Stamped.Stamp) :=
  match m.duty with
  | .start =>
    if m.left = 0 then (w, m, .stop)
    else
      let m := { m with left := m.left - 1 }
      if m.writes then (w, { m with duty := .raised }, .call (.enter .exclusive))
      else if m.left % 2 = 0 then (w, { m with duty := .left }, .call (.enter .shared))
      else (w, { m with duty := .stamped }, .call .stamp)
  | .raised => ({ w with first := w.first + 1 }, { m with duty := .left }, .pause)
  | .left =>
    if m.writes then
      ({ w with second := w.second + 1 }, { m with duty := .start }, .call .leave)
    else (w, { m with duty := .seen w.first }, .pause)
  | .seen first => (w.check first w.second, { m with duty := .start }, .call .leave)
  | .stamped =>
    match reply? with
    | some (.stamp (some s)) => (w, { m with duty := .stampedSeen s w.first }, .pause)
    | _ => (w, { m with duty := .start }, .pause)
  | .stampedSeen s first => (w, { m with duty := .validated first w.second }, .call (.validate s))
  | .validated first second =>
    match reply? with
    | some (.valid true) => (w.check first second, { m with duty := .start }, .pause)
    | _ => (w, { m with duty := .start }, .pause)

/-- The lock and the words after writers and readers took `each` turns side by side. -/
def workload (writers each readers : Nat) : Lock.Stamped × Words :=
  let memories := List.replicate writers (⟨true, each, .start⟩ : Memory) ++
    List.replicate readers ⟨false, each, .start⟩
  let crew : Crew Lock.Stamped (Gate.Client .stamped) Words Memory :=
    { pool := Gate.idle .stamped memories.length
      board := {}
      workers := (memories.map fun memory => { memory }).toArray }
  let fuel := 64 * (memories.length * each + 1)
  let c := crew.drive (Gate.client .stamped) ⟨next⟩ fuel
  (c.pool.shared, c.board)

end Stamped

end Growable.Lock.Session
