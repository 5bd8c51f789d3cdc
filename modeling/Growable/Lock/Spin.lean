import Growable.Machine

/-!
# The spin lock

A lock with one mode and one bit. A waiting thread only looks at the bit while it is set, and swaps
it for a set one once it looked clear; the lock is taken if the bit it got back was clear.

`Spin.client` is the machine of threads that use a value which the lock protects. The value is
loaded and stored in separate steps.
-/

namespace Growable.Lock.Spin

/-- Where a thread stands. -/
inductive Place where
  | out
  /-- The bit looked clear; it is swapped next. -/
  | swap
  | inside
  deriving DecidableEq, Repr

/-- One step on the way in. `taken` is the lock's bit. -/
def seek (taken : Bool) : Place → Bool × Place
  | .out => (taken, if taken then .out else .swap)
  | .swap => (true, if taken then .out else .inside)
  | .inside => (taken, .inside)

/-! ## Threads that use the protected value -/

/-- A spin lock and the value it protects. -/
structure Cell (α : Type) where
  taken : Bool := false
  value : α
  deriving DecidableEq, Repr

/-- What a thread may ask. -/
inductive Request (α : Type) where
  /-- Waits for the lock. -/
  | lock
  /-- Tries once. -/
  | tryLock
  /-- Replaces the value by its image. -/
  | update (f : α → α)
  | release

/-- What a request is answered with. -/
inductive Reply (α : Type) where
  | granted
  | refused
  /-- The value was replaced; this was the old one. -/
  | updated (old : α)
  | released
  deriving DecidableEq, Repr

/-- What a thread is doing. -/
inductive Task (α : Type) where
  /-- Nothing; the last request, if there was one, was answered so. -/
  | rest (last? : Option (Reply α))
  | locking (place : Place)
  | trying (place : Place)
  /-- Loads the value next. -/
  | loading (f : α → α)
  /-- Has loaded `old`; stores its image next. -/
  | storing (f : α → α) (old : α)
  | releasing

/-- A thread that uses a protected value. -/
structure Client (α : Type) where
  /-- The thread was granted the lock and has not released it. -/
  holds : Bool := false
  task : Task α := .rest none

namespace Client

variable {α : Type}

/-- The thread rests. -/
def rests (c : Client α) : Bool :=
  match c.task with
  | .rest _ => true
  | _ => false

/-- The answer to the last request, once there is one. -/
def reply? (c : Client α) : Option (Reply α) :=
  match c.task with
  | .rest last? => last?
  | _ => none

/-- Takes up a request. Only a thread that holds the lock uses the value or releases the lock. Any
thread may ask for the lock; one that holds it then waits for itself, or is refused. -/
def start (r : Request α) (c : Client α) : Client α :=
  match r with
  | .lock => { c with task := .locking .out }
  | .tryLock => { c with task := .trying .out }
  | .update f => if c.holds then { c with task := .loading f } else c
  | .release => if c.holds then { c with task := .releasing } else c

/-- One step of a thread. -/
def step (s : Cell α) (c : Client α) : Cell α × Client α :=
  match c.task with
  | .rest _ => (s, c)
  | .locking place =>
    let r := seek s.taken place
    ({ s with taken := r.1 },
      if r.2 = .inside then ⟨true, .rest (some .granted)⟩ else { c with task := .locking r.2 })
  | .trying place =>
    let r := seek s.taken place
    ({ s with taken := r.1 },
      match r.2 with
      | .inside => ⟨true, .rest (some .granted)⟩
      | .out => { c with task := .rest (some .refused) }
      | .swap => { c with task := .trying .swap })
  | .loading f => (s, { c with task := .storing f s.value })
  | .storing f old =>
    ({ s with value := f old }, { c with task := .rest (some (.updated old)) })
  | .releasing => ({ s with taken := false }, ⟨false, .rest (some .released)⟩)

end Client

/-- The machine of threads that use a protected value. -/
def client (α : Type) : Machine (Cell α) (Client α) (Request α) (Reply α) where
  start := Client.start
  step _ _ := Client.step
  rests := Client.rests
  reply? := Client.reply?

/-- The text that shows the lock in a log. -/
def Cell.toLogText {α : Type} (s : Cell α) : String :=
  s!"TTas \x7b locked: {s.taken}, .. \x7d"

end Growable.Lock.Spin
