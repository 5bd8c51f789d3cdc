import Growable.Lock.Session.Flagged

/-!
# Sessions at a roster

A script of threads that start, take an index, and end. The main thread has index 0.
-/

namespace Growable.Lock.Session

/-- A roster and the threads that have not ended. -/
structure Roster where
  roster : Lock.Roster := mainRoster
  threads : List (Nat × Lock.Roster.Client) := []

namespace Roster

/-- A step of the script. -/
inductive Step where
  /-- The index of the main thread. -/
  | main
  /-- Starts a thread that has no index yet. -/
  | spawn (t : Nat)
  /-- A thread's index; it takes one if it has none. -/
  | index (t : Nat)
  /-- Whether a thread's index, or the highest flagged one, is below the high-water mark. -/
  | belowHighWater (t : Nat)
  /-- Ends a thread. -/
  | exit (t : Nat)
  /-- Starts `n` threads from `first` on, each with an index; the first and the last index. -/
  | spawnMany (first n : Nat)
  deriving DecidableEq, Repr

/-- The outcome of a step. -/
inductive Result where
  | done
  | index (i : Nat)
  | truth (b : Bool)
  | span (first? last? : Option Nat)
  deriving DecidableEq, Repr

/-- Keeps a thread under its number. -/
def setThread (s : Roster) (t : Nat) (c : Lock.Roster.Client) : Roster :=
  { s with threads := (t, c) :: s.threads.eraseP (·.1 == t) }

/-- A thread by itself makes a request. -/
def ask (s : Roster) (t : Nat) (q : Lock.Roster.Request) : Roster × Lock.Roster.Client :=
  let c := (s.threads.lookup t).getD {}
  let (roster, c) := Lock.Roster.client.perform 0 2 q s.roster c
  ({ s with roster }.setThread t c, c)

/-- A thread's index; it takes one if it has none. -/
def index (s : Roster) (t : Nat) : Roster × Nat :=
  let (s, c) := s.ask t .acquire
  (s, c.index?.getD 0)

/-- Takes a step. -/
def step (s : Roster) : Step → Roster × Result
  | .main => (s, .index 0)
  | .spawn t => (s.setThread t {}, .done)
  | .index t =>
    let (s, i) := s.index t
    (s, .index i)
  | .belowHighWater t =>
    let (s, i) := s.index t
    (s, .truth (min i (Lock.Roster.flagged - 1) < s.roster.highWater))
  | .exit t =>
    let (s, _) := s.ask t .release
    ({ s with threads := s.threads.eraseP (·.1 == t) }, .done)
  | .spawnMany first n =>
    let (s, indices) := (List.range n).foldl
      (fun (s, is) k =>
        let (s, i) := s.index (first + k)
        (s, i :: is))
      (s, [])
    (s, .span indices.getLast? indices.head?)

end Roster

end Growable.Lock.Session
