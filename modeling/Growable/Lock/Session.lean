import Growable.Lock.Gate

/-!
# Sessions at a gate

A session is a script of steps at one gate that protects an integer. Its guards are threads that
stay inside from one step to the next; its queue holds threads that wait for a mode, do one thing
inside, and leave. A step that could never end is not taken: its outcome is that it would block.

Once nobody stays inside, the queue is let through, before the state is looked at.
-/

namespace Growable.Lock

/-- The outcome of a step of a session. -/
inductive Outcome where
  | done
  /-- The step could never end and was not taken. -/
  | wouldBlock
  | truth (b : Bool)
  | number (n : Int)
  /-- There is nothing to answer with. -/
  | nothing
  deriving DecidableEq, Repr

/-- What a queued thread does inside. -/
inductive Job where
  /-- Adds to the value in exclusive mode. -/
  | change (d : Int)
  /-- Looks at the value in shared mode. -/
  | look
  deriving DecidableEq, Repr

/-- The mode a job needs. -/
def Job.mode : Job → Mode
  | change _ => .exclusive
  | look => .shared

/-- A gate, the value it protects, and the threads at it. -/
structure Session (G : Gate) where
  word : G.Word := G.free
  value : Int := 0
  /-- The threads that stay inside. Those with a name are let out by it. -/
  guards : List (Option Nat × Gate.Client G) := []
  /-- The threads that wait, the first one first. -/
  queue : List (Job × Gate.Client G) := []

/-- What the queue did when it was let through. -/
structure Settled where
  /-- The number of changes. -/
  changes : Nat := 0
  /-- The values that were seen, the first one first. -/
  seen : List Int := []
  deriving DecidableEq, Repr

namespace Gate

variable (G : Gate)

/-- A thread by itself goes on with a request as far as it gets. -/
def advance (w : G.Word) (c : Client G) : G.Word × Client G :=
  G.client.alone 0 (G.patience + 1) w c

/-- A thread by itself makes a request; none if it would wait. -/
def ask? (w : G.Word) (c : Client G) (r : Request G.Stamp) :
    Option (G.Word × Client G × Reply G.Stamp) :=
  let x := G.advance w (Gate.Client.start r c)
  (x.2.reply?).map fun reply => (x.1, x.2, reply)

end Gate

namespace Session

variable {G : Gate}

/-- The thread inside under a name. -/
def guard? (s : Session G) (id : Nat) : Option (Gate.Client G) :=
  s.guards.lookup (some id)

/-- Somebody stays inside in a mode. -/
def isHeld (s : Session G) (m : Mode) : Bool :=
  s.guards.any fun g => G.holds m g.2.place

/-- The number of changes in the queue. -/
def queuedChanges (s : Session G) : Nat :=
  s.queue.countP fun q => q.1.mode == .exclusive

/-- A new thread enters and stays inside, unless it would wait. -/
def enter (s : Session G) (name? : Option Nat) (m : Mode) : Session G × Outcome :=
  match G.ask? s.word {} (.enter m) with
  | some (word, c, _) => ({ s with word, guards := (name?, c) :: s.guards }, .done)
  | none => (s, .wouldBlock)

/-- A new thread tries once to enter, and stays inside if it can. -/
def attempt (s : Session G) (name? : Option Nat) (m : Mode) : Session G × Bool :=
  match G.ask? s.word {} (.attempt m) with
  | some (word, c, .granted) => ({ s with word, guards := (name?, c) :: s.guards }, true)
  | some (word, _, _) => ({ s with word }, false)
  | none => (s, false)

/-- Lets a thread out. -/
def letOut (s : Session G) (c : Gate.Client G) : Session G :=
  match G.ask? s.word c .leave with
  | some (word, _, _) => { s with word }
  | none => s

/-- Lets the thread under a name out. -/
def release (s : Session G) (id : Nat) : Session G × Bool :=
  match s.guard? id with
  | some c =>
    ({ s.letOut c with guards := s.guards.eraseP (·.1 == some id) }, true)
  | none => (s, false)

/-- Lets all threads out that fit. -/
def releaseAll (s : Session G) (fits : Option Nat → Bool) : Session G :=
  let out := s.guards.filter (fits ·.1)
  { out.foldl (fun s g => s.letOut g.2) s with guards := s.guards.filter (!fits ·.1) }

/-- A new thread joins the queue; it goes as far as it gets. -/
def enqueue (s : Session G) (j : Job) : Session G :=
  let (word, c) := G.advance s.word (Gate.Client.start (.enter j.mode) {})
  { s with word, queue := s.queue ++ [(j, c)] }

/-- One thread of the queue goes as far as it gets: it does its job and leaves, or waits on. -/
def serve (s : Session G) (r : Settled) (j : Job) (c : Gate.Client G) : Session G × Settled :=
  let (word, c) := G.advance s.word c
  let s := { s with word }
  match c.reply? with
  | some _ =>
    match j with
    | .change d => ({ s with value := s.value + d }.letOut c, { r with changes := r.changes + 1 })
    | .look => (s.letOut c, { r with seen := r.seen ++ [s.value] })
  | none => ({ s with queue := s.queue ++ [(j, c)] }, r)

/-- The threads of the queue are served in turn, as many times as there are threads at first. -/
def drain : (rounds : Nat) → Session G → Settled → Session G × Settled
  | 0, s, r => (s, r)
  | rounds + 1, s, r =>
    let (s, r) := s.queue.foldl (fun (s, r) q => serve s r q.1 q.2) ({ s with queue := [] }, r)
    drain rounds s r

/-- Lets the queue through if nobody stays inside. -/
def settle (s : Session G) : Session G × Settled :=
  if s.guards.isEmpty then drain s.queue.length s {} else (s, {})

/-- The session after everybody inside has left and the queue is through. -/
def finish (s : Session G) : Session G :=
  (s.releaseAll fun _ => true).settle.1

end Session

end Growable.Lock
