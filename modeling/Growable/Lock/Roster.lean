import Growable.Machine

/-!
# Thread indices

A roster hands small numbers to threads: each live thread that asks has one, no two have the same,
and the number of a thread that ended is handed out again, the lowest first. So the numbers in use
stay close to zero however many threads come and go.

To take a number is one look at the numbers given back and, if there were none, a second step that
draws a new one. A thread in between still draws a new number when one is given back meanwhile.
-/

namespace Growable.Lock

/-- Thread indices in use and given back. -/
structure Roster where
  /-- The lowest index never handed out. -/
  next : Nat := 0
  /-- Indices given back. -/
  free : List Nat := []
  deriving DecidableEq, Repr

namespace Roster

/-- The number of threads with a flag of their own in every lock that has such flags. -/
def flagged : Nat := 1024

/-- Takes the lowest index given back, if there is one. -/
def scan (r : Roster) : Roster × Option Nat :=
  match r.free.min? with
  | some i => ({ r with free := r.free.erase i }, some i)
  | none => (r, none)

/-- Draws an index never handed out before. -/
def draw (r : Roster) : Roster × Nat :=
  ({ r with next := r.next + 1 }, r.next)

/-- Gives an index back. -/
def release (r : Roster) (i : Nat) : Roster :=
  { r with free := i :: r.free }

/-- A bound above every index below `flagged` handed out so far. -/
def highWater (r : Roster) : Nat := min r.next flagged

/-! ## Threads that ask for an index -/

/-- What a thread may ask of the roster. -/
inductive Request where
  /-- An index, unless the thread has one. -/
  | acquire
  /-- To give the index back. -/
  | release
  deriving DecidableEq, Repr

/-- What a thread is doing. -/
inductive Task where
  | rest
  /-- Looks at the indices given back next. -/
  | scanning
  /-- Found none given back; draws a new one next. -/
  | drawing
  | releasing
  deriving DecidableEq, Repr

/-- A thread that asks for an index. -/
structure Client where
  index? : Option Nat := none
  task : Task := .rest
  deriving DecidableEq, Repr

/-- Takes up a request that fits. -/
def Client.start (q : Request) (c : Client) : Client :=
  match q with
  | .acquire => if c.index?.isNone then { c with task := .scanning } else c
  | .release => if c.index?.isSome then { c with task := .releasing } else c

/-- One step of a thread. -/
def Client.step (r : Roster) (c : Client) : Roster × Client :=
  match c.task with
  | .rest => (r, c)
  | .scanning =>
    match r.scan with
    | (r, some i) => (r, ⟨some i, .rest⟩)
    | (r, none) => (r, { c with task := .drawing })
  | .drawing =>
    let (r, i) := r.draw
    (r, ⟨some i, .rest⟩)
  | .releasing =>
    match c.index? with
    | some i => (r.release i, ⟨none, .rest⟩)
    | none => (r, { c with task := .rest })

/-- The machine of threads that ask for an index. -/
def client : Machine Roster Client Request (Option Nat) where
  start := Client.start
  step _ _ := Client.step
  rests c := c.task == .rest
  reply? c := if c.task == .rest then some c.index? else none

end Roster

end Growable.Lock
