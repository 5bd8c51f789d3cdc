import Growable.Crew
import Growable.SharedArray.Basic

/-!
# Array workloads

Several threads use one array at once. Each thread first appends its own numbers and reads each one
back; then it overwrites, round after round, its share of the elements that were there before. What
is reported does not depend on how the threads take turns.
-/

namespace Growable.SharedArray

/-! ## Crews of an array -/

/-- Several threads follow a program on an array, for at most `fuel` sweeps; what the threads
remember at the end. Threads that have stopped leave the gate's roster. -/
def Strategy.drive {L : Lock.Monitors} {α β ω : Type} [Inhabited α] (s : Strategy L α) (fuel : Nat)
    (p : Program β ω (Call α) (Answer α)) (board : β) (memories : Array ω) :
    Strategy L α × Array ω :=
  let workers := memories.map fun memory => { memory : Worker ω }
  match s with
  | .unguarded s =>
    let threads := memories.map fun _ => Unguarded.Task.rest none
    let c := Crew.drive (Unguarded.machine α) p fuel ⟨⟨s, threads⟩, board, workers⟩
    (.unguarded c.pool.shared, c.workers.map (·.memory))
  | .monitored k s =>
    let threads := memories.map fun _ => ({} : Monitored.Client (k.monitor L) α)
    let c := Crew.drive (Monitored.machine (k.monitor L) α) p fuel ⟨⟨s, threads⟩, board, workers⟩
    (.monitored k c.pool.shared, c.workers.map (·.memory))
  | .gated k s owner =>
    let threads := memories.map fun _ => ({} : Gated.Client k.gate α)
    let c := Crew.drive (Gated.machine k.gate α) p fuel ⟨⟨s, threads⟩, board, workers⟩
    let gate := c.pool.threads.foldl (fun w t => (k.gate.retire w t.place).1) c.pool.shared.gate
    (.gated k { c.pool.shared with gate } owner, c.workers.map (·.memory))

/-! ## The workload -/

/-- What every thread does to an array of `old` elements. -/
structure Workload where
  threads : Nat
  /-- Numbers each thread appends. -/
  each : Nat
  /-- Rounds of overwriting. -/
  rounds : Nat
  old : Nat

/-- What a thread is at. -/
inductive Duty where
  /-- Appends its `k`-th number. -/
  | append (k : Nat)
  /-- Hears where its `k`-th number went. -/
  | appended (k : Nat)
  /-- Hears what is there. -/
  | readBack (k : Nat)
  /-- Overwrites element `i` in round `r`. -/
  | overwrite (r i : Nat)

/-- What a thread remembers. -/
structure Memory where
  duty : Duty := .append 0
  /-- Appends that went well. -/
  accepted : Nat := 0
  /-- Appends that were refused. -/
  refused : Nat := 0
  /-- Every number was read back as it was appended. -/
  matched : Bool := true
  /-- Each index was above the one before. -/
  rising : Bool := true
  last? : Option Nat := none

namespace Workload

/-- The `k`-th number of a thread. -/
def number (w : Workload) (me k : Nat) : UInt64 := (me * w.each + k).toUInt64

/-- The order to append the `k`-th number, or to go on with overwriting. -/
def orderAppend (w : Workload) (me k : Nat) (m : Memory) : Memory × Order (Call UInt64) :=
  if k < w.each then ({ m with duty := .appended k }, .call (.append (w.number me k)))
  else ({ m with duty := .overwrite 0 me }, .pause)

/-- What a thread does after the answer to its last call. -/
def next (w : Workload) (me : Nat) (_ : Unit) (m : Memory) (reply? : Option (Answer UInt64)) :
    Unit × Memory × Order (Call UInt64) :=
  match m.duty with
  | .append k => ((), w.orderAppend me k m)
  | .appended k =>
    match reply? with
    | some (.index i) =>
      ((), { m with
        duty := .readBack k
        accepted := m.accepted + 1
        rising := m.rising && (m.last?.all (· < i))
        last? := some i }, .call (.read i))
    | _ => ((), w.orderAppend me (k + 1) { m with refused := m.refused + 1 })
  | .readBack k =>
    ((), w.orderAppend me (k + 1)
      { m with matched := m.matched && reply? == some (.value (w.number me k)) })
  | .overwrite r i =>
    if r < w.rounds then
      if i < w.old then
        ((), { m with duty := .overwrite r (i + w.threads) },
          .call (.write i (i * 1000 + r).toUInt64))
      else ((), { m with duty := .overwrite (r + 1) me }, .pause)
    else ((), m, .stop)

/-- The program of every thread. -/
def program (w : Workload) : Program Unit Memory (Call UInt64) (Answer UInt64) := ⟨w.next⟩

/-- More sweeps than the threads need: each call waits for at most every other thread, and copies
the store a few times at most. -/
def fuel (w : Workload) (capacity : Nat) : Nat :=
  let calls := w.threads * (2 * w.each + w.rounds * (w.old + 1) + 1)
  (calls + 1) * (2 * (capacity + calls) + 4096)

end Workload

/-- What is reported of a workload. -/
structure Report where
  kind : Kind
  length : Nat
  accepted : Nat
  refused : Nat
  matched : Bool
  rising : Bool
  withinCapacity : Bool
  /-- The old elements, if they were overwritten. -/
  old : List Nat
  /-- The new elements in order of size, unless an append was refused. -/
  new? : Option (List Nat)

/-- Threads appending `each` numbers and overwriting for `rounds` rounds, under a kind of strategy
that is set first. -/
def work {L : Lock.Monitors} (a : SharedArray L UInt64) (k : Kind) (threads each rounds : Nat) :
    SharedArray L UInt64 × Report :=
  let a := a.setKind k
  let w : Workload := { threads, each, rounds, old := a.length }
  let (s, memories) :=
    a.strategy.drive (w.fuel a.capacity) w.program () (Array.replicate threads {})
  let a := { a with strategy := s }
  let (a, elements) :=
    match a.perform .toArray with
    | (a, .values vs) => (a, vs.toList.map UInt64.toNat)
    | (a, _) => (a, [])
  let accepted := memories.foldl (fun n m => n + m.accepted) 0
  let refused := memories.foldl (fun n m => n + m.refused) 0
  (a, {
    kind := a.kind
    length := a.length
    accepted
    refused
    matched := memories.all (·.matched)
    rising := memories.all (·.rising)
    withinCapacity := a.length ≤ a.capacity
    old := if rounds = 0 then [] else elements.take w.old
    new? := if refused = 0 then some ((elements.drop w.old).mergeSort (· ≤ ·)) else none })

end Growable.SharedArray
