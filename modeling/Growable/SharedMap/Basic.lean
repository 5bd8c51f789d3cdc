import Growable.Lock.Layout
import Growable.SharedMap.Hasher
import Growable.SharedMap.Machine

/-!
# The shared map

A growable map from keys to values behind a layout lock, with a hash function of the user's choice.
-/

namespace Growable

/-- A growable map shared between threads. -/
structure SharedMap (K V : Type) where
  hash : K → UInt64
  shared : SharedMap.Shared .layout K V

namespace SharedMap

variable {K V : Type}

/-- An empty map with room for `capacity` entries. -/
def ofCapacity (hash : K → UInt64) (capacity : Nat) : SharedMap K V :=
  ⟨hash, { table := emptyTable (bucketsFor capacity) }⟩

/-- The number of entries. -/
def length (m : SharedMap K V) : Nat := m.shared.length

/-- The number of buckets. -/
def capacity (m : SharedMap K V) : Nat := m.shared.table.size

/-- No entry. -/
def isEmpty (m : SharedMap K V) : Bool := m.length == 0

/-- The text that shows a map in a log. -/
def toLogText (m : SharedMap K V) : String :=
  s!"LayoutMap \x7b len: {m.length}, buckets: {m.capacity} \x7d"

/-- The records since they were last taken, the earliest first, and the map without them. -/
def takeRecords (m : SharedMap K V) : List Record × SharedMap K V :=
  (m.shared.journal.reverse, { m with shared := { m.shared with journal := [] } })

section

variable [DecidableEq K]

/-- One thread performs a call by itself; none if it would wait. -/
def perform (m : SharedMap K V) (c : Call K V) : SharedMap K V × Option (Answer K V) :=
  match m with
  | ⟨hash, shared⟩ =>
    let machine := machine .layout hash
    let r := machine.perform 0 (fuel shared) c shared {}
    (⟨hash, r.1⟩, machine.reply? r.2)

/-- Inserts a key or replaces its value; the old value. -/
def insert (m : SharedMap K V) (k : K) (v : V) : SharedMap K V × Option V :=
  match m.perform (.errand (.insert k v)) with
  | (m, some (.found old?)) => (m, old?)
  | (m, _) => (m, none)

/-- Inserts a key unless it is there; the value there was. -/
def insertIfAbsent (m : SharedMap K V) (k : K) (v : V) : SharedMap K V × Option V :=
  match m.perform (.errand (.insertIfAbsent k v)) with
  | (m, some (.found old?)) => (m, old?)
  | (m, _) => (m, none)

/-- The value of a key. -/
def get? (m : SharedMap K V) (k : K) : SharedMap K V × Option V :=
  match m.perform (.errand (.get k)) with
  | (m, some (.found v?)) => (m, v?)
  | (m, _) => (m, none)

/-- Whether a key has a value. -/
def contains (m : SharedMap K V) (k : K) : SharedMap K V × Bool :=
  match m.perform (.errand (.contains k)) with
  | (m, some (.truth b)) => (m, b)
  | (m, _) => (m, false)

/-- All entries, bucket by bucket and within a bucket in the order they came in. -/
def entries (m : SharedMap K V) : SharedMap K V × List (K × V) :=
  match m.perform .entries with
  | (m, some (.entries kvs)) => (m, kvs)
  | (m, _) => (m, [])

/-- All keys, in the order of the entries. -/
def keys (m : SharedMap K V) : SharedMap K V × List K :=
  let r := m.entries
  (r.1, r.2.map (·.1))

/-- Inserts entries one after the other; how many keys were new. -/
def insertAll (m : SharedMap K V) (kvs : List (K × V)) : SharedMap K V × Nat :=
  kvs.foldl
    (fun (m, count) (k, v) =>
      match m.insert k v with
      | (m, none) => (m, count + 1)
      | (m, some _) => (m, count))
    (m, 0)

end

/-! ## Snapshots -/

/-- What a walk found, handed out item by item. What is inserted meanwhile does not show. -/
structure Snapshot (α : Type) where
  rest : List α

namespace Snapshot

variable {α : Type}

/-- The next `n` items, or all if there are fewer, and what is left. -/
def pull (s : Snapshot α) (n : Nat) : List α × Snapshot α := (s.rest.take n, ⟨s.rest.drop n⟩)

/-- The number of items left. -/
def length (s : Snapshot α) : Nat := s.rest.length

end Snapshot

end SharedMap

end Growable
