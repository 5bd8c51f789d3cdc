import Growable.Lock.Flagged
import Growable.Lock.Session

/-!
# Sessions at a layout lock with flags

A script of steps at one layout lock with flags that protects an integer. Worker threads, known by
number, take access; each keeps its index and its flag until it ends. The main thread, which has
index 0, takes changes.
-/

namespace Growable.Lock.Session

/-- The roster once the main thread has index 0. -/
def mainRoster : Roster := { next := 1 }

/-- A layout lock with flags, the value it protects, and the threads at it. -/
structure Flagged where
  word : Lock.Flagged := { roster := mainRoster }
  value : Int := 0
  main : Gate.Client .flagged := { place := .out (some 0) }
  /-- The workers that have not ended. -/
  workers : List (Nat × Gate.Client .flagged) := []
  /-- The workers that wait for the end of the main thread's change, the first one first. -/
  waiting : List Nat := []
  /-- The changes that wait, each on a thread of its own, the first one first. -/
  queue : List (Int × Gate.Client .flagged) := []

namespace Flagged

/-- A step of the script. -/
inductive Step where
  /-- A worker takes access; the value. -/
  | access (t : Nat)
  /-- The value, through a worker's guard. -/
  | get (t : Nat)
  | release (t : Nat)
  /-- Ends a worker. -/
  | exit (t : Nat)
  /-- The main thread takes a change; the value. -/
  | change
  /-- Adds in the main thread's change. -/
  | add (d : Int)
  | changeEnd
  /-- Adds without the lock, as its only user. -/
  | getMut (d : Int)
  /-- A thread that changes the value. -/
  | queueChange (d : Int)
  /-- A worker that waits for the main thread's change to end. -/
  | queueAccess (t : Nat)
  deriving DecidableEq, Repr

/-- A thread is inside. -/
def isInside (c : Gate.Client .flagged) : Bool := Gate.flagged.inside c.place

/-- The worker with a number; a new thread if there is none yet. -/
def worker (s : Flagged) (t : Nat) : Gate.Client .flagged := (s.workers.lookup t).getD {}

/-- Keeps a worker under its number. -/
def setWorker (s : Flagged) (t : Nat) (c : Gate.Client .flagged) : Flagged :=
  { s with workers := (t, c) :: s.workers.eraseP (·.1 == t) }

/-- A worker is in access or waits for it. -/
def isBusy (s : Flagged) (t : Nat) : Bool := isInside (s.worker t) || s.waiting.contains t

/-- Some worker is in access. -/
def isAccessed (s : Flagged) : Bool := s.workers.any fun w => isInside w.2

/-- The main thread is in a change. -/
def isChanging (s : Flagged) : Bool := isInside s.main

/-- Nobody is inside or waits. -/
def isQuiet (s : Flagged) : Bool :=
  !s.isAccessed && !s.isChanging && s.waiting.isEmpty && s.queue.isEmpty

/-- The waiting changes are made, one after the other. -/
def settleChanges (s : Flagged) : Flagged × Nat :=
  s.queue.foldl
    (fun (s, count) (d, c) =>
      let (word, c) := Gate.flagged.advance s.word c
      match c.reply? with
      | some _ =>
        let (word, _) := Gate.flagged.advance word (.start .leave c)
        ({ s with word, value := s.value + d }, count + 1)
      | none => ({ s with word, queue := s.queue ++ [(d, c)] }, count))
    ({ s with queue := [] }, 0)

/-- The waiting workers take access; the values they see. -/
def settleAccesses (s : Flagged) : Flagged × List Int :=
  s.waiting.foldl
    (fun (s, seen) t =>
      let (word, c) := Gate.flagged.advance s.word (s.worker t)
      ({ s with word }.setWorker t c, seen ++ [s.value]))
    ({ s with waiting := [] }, [])

/-- Lets waiting threads on if nobody is inside: the changes first, then the workers. -/
def settle (s : Flagged) : Flagged × Settled :=
  if s.isAccessed || s.isChanging then (s, {})
  else
    let (s, changes) := s.settleChanges
    let (s, seen) := s.settleAccesses
    (s, { changes, seen })

/-- Takes a step, before waiting threads are let on. -/
def take (s : Flagged) : Step → Flagged × Outcome
  | .access t =>
    if s.isBusy t || s.isChanging || !s.queue.isEmpty then (s, .wouldBlock)
    else
      match Gate.flagged.ask? s.word (s.worker t) (.enter .shared) with
      | some (word, c, _) => ({ s with word }.setWorker t c, .number s.value)
      | none => (s, .wouldBlock)
  | .get t => (s, if isInside (s.worker t) then .number s.value else .nothing)
  | .release t =>
    if isInside (s.worker t) then
      match Gate.flagged.ask? s.word (s.worker t) .leave with
      | some (word, c, _) => ({ s with word }.setWorker t c, .truth true)
      | none => (s, .truth false)
    else (s, .truth false)
  | .exit t =>
    if s.isBusy t then (s, .wouldBlock)
    else
      match s.workers.lookup t with
      | some c =>
        let (word, _) := Gate.flagged.advance s.word (.start .retire c)
        ({ s with word, workers := s.workers.eraseP (·.1 == t) }, .truth true)
      | none => (s, .truth false)
  | .change =>
    if s.isQuiet then
      match Gate.flagged.ask? s.word s.main (.enter .exclusive) with
      | some (word, main, _) => ({ s with word, main }, .number s.value)
      | none => (s, .wouldBlock)
    else (s, .wouldBlock)
  | .add d =>
    if s.isChanging then ({ s with value := s.value + d }, .truth true) else (s, .truth false)
  | .changeEnd =>
    if s.isChanging then
      let (word, main) := Gate.flagged.advance s.word (.start .leave s.main)
      ({ s with word, main }, .truth true)
    else (s, .truth false)
  | .getMut d =>
    if s.isQuiet then ({ s with value := s.value + d }, .number (s.value + d))
    else (s, .wouldBlock)
  | .queueChange d =>
    if s.waiting.isEmpty then
      let (word, c) := Gate.flagged.advance s.word (.start (.enter .exclusive) {})
      ({ s with word, queue := s.queue ++ [(d, c)] }, .done)
    else (s, .wouldBlock)
  | .queueAccess t =>
    if s.isChanging && s.queue.isEmpty && !s.isBusy t then
      let (word, c) := Gate.flagged.advance s.word (.start (.enter .shared) (s.worker t))
      ({ s with word, waiting := s.waiting ++ [t] }.setWorker t c, .done)
    else (s, .wouldBlock)

/-- Takes a step and lets waiting threads on if nobody is inside. -/
def step (s : Flagged) (x : Step) : Flagged × Outcome × Settled :=
  let (s, r) := s.take x
  let (s, settled) := s.settle
  (s, r, settled)

/-- The session after everybody inside has left and everybody waiting is through. -/
def finish (s : Flagged) : Flagged :=
  let s := s.workers.foldl (fun s w => (s.take (.release w.1)).1) s
  (s.step .changeEnd).1

/-! ## Crowds -/

/-- What is reported of a round: the sum of the values seen, and the lock while all hold it, after
all have left, and after a change. -/
structure Round where
  sum : Int
  held : Lock.Flagged
  left : Lock.Flagged
  changed : Lock.Flagged

/-- What is reported of a crowd: the indices, the lock before any access, the rounds and the value at
the end. -/
structure Crowd where
  indices : List Nat
  start : Lock.Flagged
  rounds : List Round
  value : Int

/-- Threads start, and each takes an index. -/
def gather (s : Flagged) (threads : Nat) : Flagged :=
  (List.range threads).foldl
    (fun s t =>
      let (word, c) := Gate.flagged.advance s.word (.start .enroll {})
      { s with word }.setWorker t c)
    s

/-- All workers take access, all leave, and the main thread adds one. -/
def round (s : Flagged) : Flagged × Round :=
  let names := s.workers.reverse.map (·.1)
  let (s, sum) := names.foldl
    (fun (s, sum) t =>
      match s.take (.access t) with
      | (s, .number v) => (s, sum + v)
      | (s, _) => (s, sum))
    (s, 0)
  let held := s.word
  let s := names.foldl (fun s t => (s.take (.release t)).1) s
  let left := s.word
  let s := (s.take .change).1
  let s := (s.take (.add 1)).1
  let s := (s.take .changeEnd).1
  (s, { sum, held, left, changed := s.word })

/-- The first rounds of a session, the earliest first. -/
def play : (rounds : Nat) → Flagged → Flagged × List Round
  | 0, s => (s, [])
  | n + 1, s =>
    let (s, r) := s.round
    let (s, rs) := play n s
    (s, r :: rs)

/-- Many threads with an index each take access together, round after round. -/
def crowd (threads rounds : Nat) (value : Int) : Crowd :=
  let s := ({ value } : Flagged).gather threads
  let indices := s.workers.reverse.filterMap fun w =>
    match w.2.place with
    | .out index? => index?
    | _ => none
  let start := s.word
  let (s, rounds) := s.play rounds
  { indices, start, rounds, value := s.value }

end Flagged

end Growable.Lock.Session
