import Growable.Machine

/-!
# Gates

A gate is a lock with a shared and an exclusive mode, written as atomic steps: the lock's word, the
places a thread may stand at on its way in and out, and the one step it takes from each. A thread
that waits stays at a place, or goes round through several, until the word lets it on.

A gate may also offer reading without entering: a stamp is taken, and proves afterwards that
nobody held the gate exclusively in between.

`Gate.client` is the machine of threads that do nothing but use a gate.
-/

namespace Growable.Lock

/-- How a gate is held. -/
inductive Mode where
  /-- Together with others that hold it shared. -/
  | shared
  /-- By one thread alone. -/
  | exclusive
  deriving DecidableEq, Repr

/-- A lock with a shared and an exclusive mode. -/
structure Gate where
  /-- The lock's own state. -/
  Word : Type
  /-- Where a thread stands, with what it keeps from one use to the next. -/
  Place : Type
  /-- A proof of having looked at the lock; a one-point type if the gate has none. -/
  Stamp : Type
  /-- A lock nobody has used. -/
  free : Word
  /-- A thread that has never used the lock. -/
  fresh : Place
  /-- The thread neither holds the lock nor is on its way. -/
  outside : Place → Bool
  /-- The thread has been granted the mode. -/
  holds : Mode → Place → Bool
  /-- One step of a thread on its way into the mode. -/
  seek : Mode → (luck : Bool) → Word → Place → Word × Place
  /-- A thread that holds the lock gives it up. -/
  leave : Word → Place → Word × Place
  /-- Where a single attempt at the mode starts, if the gate offers one. -/
  attempt? : Mode → Option Place
  /-- The outside place of a thread whose single attempt has failed. -/
  retreat? : Place → Option Place
  /-- The thread has all that it keeps from one use to the next. -/
  enrolled : Place → Bool
  /-- One step of a thread outside towards what it keeps from one use to the next. -/
  enroll : Word → Place → Word × Place
  /-- A thread that is outside ends, and gives back what it kept. -/
  retire : Word → Place → Word × Place
  /-- Reading without entering is offered. -/
  optimistic : Bool
  /-- A stamp, unless the lock is held exclusively. -/
  stamp? : Word → Option Stamp
  /-- Nobody has held the lock exclusively since the stamp was taken. -/
  valid : Word → Stamp → Bool
  /-- As many steps as a thread needs to enter a lock that nobody is in its way at. -/
  patience : Nat

namespace Gate

variable {G : Gate}

/-- The thread holds the gate in some mode. -/
def inside (G : Gate) (p : G.Place) : Bool :=
  G.holds .shared p || G.holds .exclusive p

/-! ## Threads that use a gate -/

/-- What a thread may ask of a gate. -/
inductive Request (S : Type) where
  /-- Waits until the mode is granted. -/
  | enter (m : Mode)
  /-- Tries once. -/
  | attempt (m : Mode)
  /-- Gives up the mode held. -/
  | leave
  /-- Takes a stamp. -/
  | stamp
  /-- Checks a stamp. -/
  | validate (s : S)
  /-- Gets what it keeps from one use to the next, without entering. -/
  | enroll
  /-- Ends the thread; a new thread may take its place. -/
  | retire

/-- What a request is answered with. -/
inductive Reply (S : Type) where
  | granted
  | refused
  | left
  | stamp (s? : Option S)
  | valid (b : Bool)
  | enrolled
  | retired
  deriving DecidableEq, Repr

/-- What a thread is doing. -/
inductive Task (S : Type) where
  /-- Nothing; the last request, if there was one, was answered so. -/
  | rest (last? : Option (Reply S))
  | entering (m : Mode)
  | attempting (m : Mode)
  | leaving
  | stamping
  | validating (s : S)
  | enrolling
  | retiring

/-- A thread that uses a gate. -/
structure Client (G : Gate) where
  place : G.Place := G.fresh
  task : Task G.Stamp := .rest none

namespace Client

/-- The thread rests. -/
def rests (c : Client G) : Bool :=
  match c.task with
  | .rest _ => true
  | _ => false

/-- The answer to the last request, once there is one. -/
def reply? (c : Client G) : Option (Reply G.Stamp) :=
  match c.task with
  | .rest last? => last?
  | _ => none

/-- Takes up a request. A thread that is inside asks only to leave, one that is outside never
does; a request that does not fit is not taken up. -/
def start (r : Request G.Stamp) (c : Client G) : Client G :=
  match r with
  | .enter m => if G.outside c.place then { c with task := .entering m } else c
  | .attempt m =>
    if G.outside c.place then
      match G.attempt? m with
      | some p => ⟨p, .attempting m⟩
      | none => c
    else c
  | .leave => if G.inside c.place then { c with task := .leaving } else c
  | .stamp => { c with task := .stamping }
  | .validate s => { c with task := .validating s }
  | .enroll => if G.outside c.place then { c with task := .enrolling } else c
  | .retire => if G.outside c.place then { c with task := .retiring } else c

/-- One step of a thread. -/
def step (luck : Bool) (w : G.Word) (c : Client G) : G.Word × Client G :=
  match c.task with
  | .rest _ => (w, c)
  | .entering m =>
    let r := G.seek m luck w c.place
    (r.1, ⟨r.2, if G.holds m r.2 then .rest (some .granted) else .entering m⟩)
  | .attempting m =>
    let r := G.seek m luck w c.place
    if G.holds m r.2 then (r.1, ⟨r.2, .rest (some .granted)⟩)
    else
      match G.retreat? r.2 with
      | some p => (r.1, ⟨p, .rest (some .refused)⟩)
      | none => (r.1, ⟨r.2, .attempting m⟩)
  | .leaving =>
    let r := G.leave w c.place
    (r.1, ⟨r.2, .rest (some .left)⟩)
  | .stamping => (w, { c with task := .rest (some (.stamp (G.stamp? w))) })
  | .validating s => (w, { c with task := .rest (some (.valid (G.valid w s))) })
  | .enrolling =>
    let r := G.enroll w c.place
    (r.1, ⟨r.2, if G.enrolled r.2 then .rest (some .enrolled) else .enrolling⟩)
  | .retiring =>
    let r := G.retire w c.place
    (r.1, ⟨r.2, .rest (some .retired)⟩)

end Client

/-- The machine of threads that use a gate. -/
def client (G : Gate) : Machine G.Word (Client G) (Request G.Stamp) (Reply G.Stamp) where
  start := Client.start
  step _ := Client.step
  rests := Client.rests
  reply? := Client.reply?

/-- Threads that have not used the gate yet. -/
def idle (G : Gate) (threads : Nat) : Pool G.Word (Client G) :=
  ⟨G.free, Array.replicate threads {}⟩

end Gate

end Growable.Lock
