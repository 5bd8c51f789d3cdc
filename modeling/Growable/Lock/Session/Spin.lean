import Growable.Crew
import Growable.Lock.Session
import Growable.Lock.Spin

/-!
# Sessions at a spin lock

A script of steps at one spin lock that protects an integer. At most one guard stays inside from
one step to the next; additions that come meanwhile wait on threads of their own.
-/

namespace Growable.Lock.Session

/-- A spin lock, the guard that stays inside, and the additions that wait. -/
structure Spin where
  cell : Lock.Spin.Cell Int
  /-- The name of the guard, and its thread. -/
  holder? : Option (Nat × Lock.Spin.Client Int) := none
  /-- What each waiting thread adds, the first one first. -/
  queue : List Int := []

/-- What a thread of a crew is still to do: add `d` so often, under the lock each time. -/
structure Adder where
  times : Nat
  d : Int

namespace Spin

/-- Adds under the lock, again and again. -/
def Adder.next (_ : Nat) (_ : Unit) (a : Adder) (reply? : Option (Lock.Spin.Reply Int)) :
    Unit × Adder × Order (Lock.Spin.Request Int) :=
  match reply? with
  | some .granted => ((), a, .call (.update (· + a.d)))
  | some (.updated _) => ((), { a with times := a.times - 1 }, .call .release)
  | _ => ((), a, if a.times = 0 then .stop else .call .lock)

/-- The value after threads added side by side. -/
def add (cell : Lock.Spin.Cell Int) (adders : List Adder) : Lock.Spin.Cell Int :=
  let crew : Crew (Lock.Spin.Cell Int) (Lock.Spin.Client Int) Unit Adder :=
    { pool := ⟨cell, (adders.map fun _ => {}).toArray⟩
      board := ()
      workers := (adders.map fun a => { memory := a }).toArray }
  let fuel := 16 * (adders.foldl (fun n a => n + a.times) 0 + adders.length + 1)
  (crew.drive (Lock.Spin.client Int) ⟨Adder.next⟩ fuel).pool.shared

/-- A thread by itself makes a request; none if it would wait. -/
def ask? (cell : Lock.Spin.Cell Int) (c : Lock.Spin.Client Int) (r : Lock.Spin.Request Int) :
    Option (Lock.Spin.Cell Int × Lock.Spin.Client Int × Lock.Spin.Reply Int) :=
  let m := Lock.Spin.client Int
  let x := m.perform 0 4 r cell c
  (m.reply? x.2).map fun reply => (x.1, x.2, reply)

/-- A step of the script. -/
inductive Step where
  /-- Takes the lock. -/
  | lock (id : Nat)
  | tryLock (id : Nat)
  /-- Releases the lock; the number of additions that waited. -/
  | unlock
  /-- The value, through the guard. -/
  | get
  /-- Sets the value through the guard. -/
  | set (v : Int)
  | isLocked
  /-- Adds without the lock, as its only user. -/
  | getMut (d : Int)
  /-- A thread that adds under the lock. -/
  | queueAdd (d : Int)
  /-- Threads that add one so often, side by side. -/
  | contend (threads times : Nat)

/-- Updates the value through the guard; the value before. -/
def update? (s : Spin) (f : Int → Int) : Option (Spin × Int) :=
  match s.holder? with
  | none => none
  | some (id, c) =>
    match ask? s.cell c (.update f) with
    | some (cell, c, .updated old) => some ({ s with cell, holder? := some (id, c) }, old)
    | _ => none

/-- Releases the lock and lets the waiting additions through. -/
def unlock (s : Spin) : Spin × Nat :=
  match s.holder? with
  | none => (s, 0)
  | some (_, c) =>
    match ask? s.cell c .release with
    | some (cell, _, _) =>
      ({ cell := add cell (s.queue.map fun d => ⟨1, d⟩), holder? := none, queue := [] },
        s.queue.length)
    | none => (s, 0)

/-- Takes a step. -/
def take (s : Spin) : Step → Spin × Outcome
  | .lock id =>
    match ask? s.cell {} .lock with
    | some (cell, c, _) => ({ s with cell, holder? := some (id, c) }, .done)
    | none => (s, .wouldBlock)
  | .tryLock id =>
    match ask? s.cell {} .tryLock with
    | some (cell, c, .granted) => ({ s with cell, holder? := some (id, c) }, .truth true)
    | some (cell, _, _) => ({ s with cell }, .truth false)
    | none => (s, .wouldBlock)
  | .unlock =>
    let (s, n) := s.unlock
    (s, .number n)
  | .get =>
    match s.update? id with
    | some (s, v) => (s, .number v)
    | none => (s, .nothing)
  | .set v =>
    match s.update? fun _ => v with
    | some (s, _) => (s, .truth true)
    | none => (s, .truth false)
  | .isLocked => (s, .truth s.cell.taken)
  | .getMut d =>
    if s.cell.taken then (s, .wouldBlock)
    else ({ s with cell.value := s.cell.value + d }, .number (s.cell.value + d))
  | .queueAdd d =>
    if s.cell.taken then ({ s with queue := s.queue ++ [d] }, .done)
    else ({ s with cell := add s.cell [⟨1, d⟩] }, .done)
  | .contend threads times =>
    if s.cell.taken then (s, .wouldBlock)
    else ({ s with cell := add s.cell (List.replicate threads ⟨times, 1⟩) }, .number threads)

/-- The value after the guard has left and the queue is through. -/
def finish (s : Spin) : Int := s.unlock.1.cell.value

end Spin

end Growable.Lock.Session
