import Growable.Crew
import Growable.SharedMap.Basic

/-!
# Map workloads

Several threads insert keys into one map at once, each its own keys or all the same ones. What is
reported does not depend on how the threads take turns.
-/

namespace Growable.SharedMap

/-- What every thread inserts. -/
structure Workload where
  threads : Nat
  /-- Keys each thread inserts. -/
  each : Nat
  /-- All threads insert the same keys. -/
  overlap : Bool
  /-- Keys that are there keep their value. -/
  absent : Bool

/-- What a thread remembers: its insertions so far, and how many of them found no value. -/
structure Memory where
  done : Nat := 0
  won : Nat := 0

namespace Workload

/-- The `i`-th key of a thread. -/
def key (w : Workload) (me i : Nat) : Nat := (if w.overlap then 0 else me * w.each) + i

/-- The insertion of a key, whose value is twice the key. -/
def insertion (w : Workload) (k : Nat) : Errand UInt64 UInt64 :=
  if w.absent then .insertIfAbsent k.toUInt64 (2 * k).toUInt64
  else .insert k.toUInt64 (2 * k).toUInt64

/-- What a thread does after the answer to its last call. -/
def next (w : Workload) (me : Nat) (_ : Unit) (m : Memory)
    (reply? : Option (Answer UInt64 UInt64)) : Unit × Memory × Order (Call UInt64 UInt64) :=
  let won := match reply? with
    | some (.found none) => m.won + 1
    | _ => m.won
  if m.done < w.each then
    ((), ⟨m.done + 1, won⟩, .call (.errand (w.insertion (w.key me m.done))))
  else ((), ⟨m.done, won⟩, .stop)

/-- More sweeps than the threads need: each insertion waits for at most every other thread. -/
def fuel (w : Workload) : Nat :=
  let calls := w.threads * (w.each + 1)
  (calls + 1) * (calls + 1) * 64

end Workload

/-- What is reported of a workload. -/
structure Report where
  /-- Insertions that found no value. -/
  winners : Nat
  length : Nat
  capacity : Nat
  /-- The keys in order of size. -/
  keys : List Nat
  /-- The sum of the values. -/
  sum : Nat

/-- Threads insert into a new map. -/
def Workload.report (w : Workload) : Report :=
  let m : SharedMap UInt64 UInt64 := ofCapacity Hasher.word 0
  let machine := machine .layout m.hash
  let start : Crew (Shared .layout UInt64 UInt64) (Client .layout UInt64 UInt64) Unit Memory :=
    { pool := ⟨m.shared, Array.replicate w.threads {}⟩
      board := ()
      workers := Array.replicate w.threads { memory := {} } }
  let c := start.drive machine ⟨w.next⟩ w.fuel
  let m := { m with shared := c.pool.shared }
  let (m, kvs) := m.entries
  { winners := c.workers.foldl (fun n x => n + x.memory.won) 0
    length := m.length
    capacity := m.capacity
    keys := (kvs.map (·.1.toNat)).mergeSort (· ≤ ·)
    sum := kvs.foldl (fun n kv => n + kv.2.toNat) 0 }

end Growable.SharedMap
