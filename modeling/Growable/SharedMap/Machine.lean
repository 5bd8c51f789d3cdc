import Growable.Lock.Gate
import Growable.Lock.Spin
import Growable.Record
import Growable.SharedMap.Sizing

/-!
# Threads that use a map

A map is a table of buckets behind a gate. Looking a key up and inserting one happen in shared mode
and lock only the bucket that the key's hash selects. A thread that put a new entry into a bucket
counts it after it has left, and if the table it saw is too small by then it takes the gate
exclusively, looks again, and spreads the entries over more buckets.

Entries are never removed and a bucket keeps them in the order they came in. To walk through a map
is to visit the buckets one after the other without leaving shared mode, so no entry can change its
bucket meanwhile.
-/

namespace Growable.SharedMap

open Lock (Gate Spin.Place)

/-- A key with its hash and its value. -/
structure Entry (K V : Type) where
  hash : UInt64
  key : K
  value : V
  deriving DecidableEq, Repr

/-- Entries behind a spin lock, in the order they came in. -/
structure Bucket (K V : Type) where
  taken : Bool := false
  entries : List (Entry K V) := []
  deriving DecidableEq, Repr

/-- A table of buckets. -/
abbrev Table (K V : Type) := Array (Bucket K V)

/-- What may be done with a key in its bucket. -/
inductive Errand (K V : Type) where
  /-- Inserts the key, or replaces its value. -/
  | insert (k : K) (v : V)
  /-- Inserts the key unless it is there. -/
  | insertIfAbsent (k : K) (v : V)
  | get (k : K)
  | contains (k : K)
  deriving DecidableEq, Repr

/-- The key of an errand. -/
def Errand.key {K V : Type} : Errand K V → K
  | insert k _ | insertIfAbsent k _ | get k | contains k => k

/-- What a thread may ask. -/
inductive Call (K V : Type) where
  | errand (e : Errand K V)
  /-- All entries. -/
  | entries
  /-- The number of entries. -/
  | length
  /-- The number of buckets. -/
  | capacity
  deriving DecidableEq, Repr

/-- What a call is answered with. -/
inductive Answer (K V : Type) where
  /-- The value there was under the key. -/
  | found (v? : Option V)
  | truth (b : Bool)
  | entries (kvs : List (K × V))
  | count (n : Nat)
  deriving DecidableEq, Repr

section

variable {K V : Type}

/-- The number of the bucket a hash selects. The number of buckets is a power of two, so these are
the lowest bits of the hash. -/
def bucketOf (h : UInt64) (buckets : Nat) : Nat := h.toNat % buckets

/-- A table of empty buckets. -/
def emptyTable (buckets : Nat) : Table K V := Array.replicate buckets {}

/-- Puts an entry behind those in its bucket. -/
def pushEntry (t : Table K V) (e : Entry K V) : Table K V :=
  t.modify (bucketOf e.hash t.size) fun b => { b with entries := b.entries ++ [e] }

/-- All entries, bucket by bucket. -/
def tableEntries (t : Table K V) : List (Entry K V) :=
  t.toList.flatMap (·.entries)

/-- The entries spread over `buckets` buckets, in the same order. -/
def rehash (t : Table K V) (buckets : Nat) : Table K V :=
  (tableEntries t).foldl pushEntry (emptyTable buckets)

/-- Whether an entry is the one of a key. -/
def Entry.matches [DecidableEq K] (h : UInt64) (k : K) (e : Entry K V) : Bool :=
  e.hash == h && e.key == k

/-- The value of a key in a bucket. -/
def lookup [DecidableEq K] (h : UInt64) (k : K) (es : List (Entry K V)) : Option V :=
  (es.find? (·.matches h k)).map (·.value)

/-- The bucket with another value for a key. -/
def replace [DecidableEq K] (h : UInt64) (k : K) (v : V) : List (Entry K V) → List (Entry K V)
  | [] => []
  | e :: es => if e.matches h k then { e with value := v } :: es else e :: replace h k v es

/-- What an errand makes of the entries of a bucket, and its answer, or none if it put in a new
entry. -/
def Errand.perform [DecidableEq K] (h : UInt64) (es : List (Entry K V)) :
    Errand K V → List (Entry K V) × Option (Answer K V)
  | insert k v =>
    match lookup h k es with
    | some old => (replace h k v es, some (.found (some old)))
    | none => (es ++ [⟨h, k, v⟩], none)
  | insertIfAbsent k v =>
    match lookup h k es with
    | some old => (es, some (.found (some old)))
    | none => (es ++ [⟨h, k, v⟩], none)
  | get k => (es, some (.found (lookup h k es)))
  | contains k => (es, some (.truth (lookup h k es).isSome))

end

/-- A map. -/
structure Shared (G : Gate) (K V : Type) where
  gate : G.Word := G.free
  table : Table K V
  /-- The entries counted so far. -/
  length : Nat := 0
  /-- Records of work done, the latest first. -/
  journal : List Record := []

/-- How an errand ends. -/
inductive Outcome (K V : Type) where
  | answer (a : Answer K V)
  /-- A new entry went into a table of this many buckets. -/
  | pushed (buckets : Nat)
  deriving DecidableEq, Repr

/-- What a thread is doing. -/
inductive Task (K V : Type) where
  /-- Nothing; the last call, if there was one, was answered so. -/
  | rest (last? : Option (Answer K V))
  /-- Loads the number of entries. -/
  | length
  /-- Enters shared mode to count the buckets. -/
  | sizeEnter
  /-- In shared mode: counts the buckets. -/
  | size
  /-- Errand: enters shared mode. -/
  | enter (e : Errand K V)
  /-- Errand: locks the bucket. -/
  | lock (e : Errand K V) (place : Spin.Place)
  /-- Errand: does what is to be done in the bucket. -/
  | visit (e : Errand K V)
  /-- Errand: unlocks the bucket `b`. -/
  | unlock (b : Nat) (o : Outcome K V)
  /-- Errand: leaves shared mode. -/
  | leave (o : Outcome K V)
  /-- Insertion: counts the new entry. -/
  | count (buckets : Nat)
  /-- Growth: enters exclusive mode. -/
  | growEnter
  /-- Growth: looks again, and spreads the entries over more buckets if there are too few. -/
  | grow
  /-- Growth: leaves exclusive mode. -/
  | growLeave
  /-- Walk: enters shared mode. -/
  | walkEnter
  /-- Walk: locks the bucket `b`, with the entries so far. -/
  | walkLock (b : Nat) (place : Spin.Place) (seen : Array (K × V))
  /-- Walk: takes down the entries of bucket `b`. -/
  | walkVisit (b : Nat) (seen : Array (K × V))
  /-- Walk: unlocks the bucket `b`. -/
  | walkUnlock (b : Nat) (seen : Array (K × V))

/-- A thread that uses a map. -/
structure Client (G : Gate) (K V : Type) where
  place : G.Place := G.fresh
  task : Task K V := .rest none

namespace Task

variable {K V : Type}

/-- The thread rests. -/
def rests : Task K V → Bool
  | rest _ => true
  | _ => false

/-- The answer to the last call, once there is one. -/
def reply? : Task K V → Option (Answer K V)
  | rest last? => last?
  | _ => none

/-- The call is answered. -/
def answer (a : Answer K V) : Task K V := rest (some a)

/-- The first step of a call. -/
def ofCall : Call K V → Task K V
  | .errand e => enter e
  | .entries => walkEnter
  | .length => length
  | .capacity => sizeEnter

/-- What comes after leaving shared mode. -/
def ofOutcome : Outcome K V → Task K V
  | .answer a => answer a
  | .pushed buckets => count buckets

end Task

section

variable {G : Gate} {K V : Type}

/-- The bit of a bucket's lock. -/
def isTaken (t : Table K V) (b : Nat) : Bool := (t[b]?.map (·.taken)).getD false

/-- Sets the bit of a bucket's lock. -/
def setTaken (t : Table K V) (b : Nat) (taken : Bool) : Table K V :=
  t.modify b fun bucket => { bucket with taken }

/-- The entries of a bucket. -/
def entriesAt (t : Table K V) (b : Nat) : List (Entry K V) := (t[b]?.map (·.entries)).getD []

/-- Sets the entries of a bucket. -/
def setEntries (t : Table K V) (b : Nat) (entries : List (Entry K V)) : Table K V :=
  t.modify b fun bucket => { bucket with entries }

/-- One step of a thread towards a mode; with `next` once it is granted. -/
def enter (m : Lock.Mode) (luck : Bool) (next : Task K V) (s : Shared G K V) (c : Client G K V) :
    Shared G K V × Client G K V :=
  let r := G.seek m luck s.gate c.place
  ({ s with gate := r.1 }, ⟨r.2, if G.holds m r.2 then next else c.task⟩)

/-- The step of a thread out of the mode it holds. -/
def leave (next : Task K V) (s : Shared G K V) (c : Client G K V) : Shared G K V × Client G K V :=
  let r := G.leave s.gate c.place
  ({ s with gate := r.1 }, ⟨r.2, next⟩)

/-- Spreads the entries over as many buckets as they need, if there are too few. -/
def grow (s : Shared G K V) : Shared G K V :=
  if isOverLoaded s.length s.table.size then
    let buckets := grownBuckets s.length (2 * s.table.size)
    { s with
      table := rehash s.table buckets
      journal := .resizing s.table.size buckets s.length :: s.journal }
  else s

/-- One step of a thread. -/
def step [DecidableEq K] (hash : K → UInt64) (luck : Bool) (s : Shared G K V) (c : Client G K V) :
    Shared G K V × Client G K V :=
  let go (task : Task K V) : Shared G K V × Client G K V := (s, { c with task })
  match c.task with
  | .rest _ => (s, c)
  | .length => go (.answer (.count s.length))
  | .sizeEnter => enter .shared luck .size s c
  | .size => go (.leave (.answer (.count s.table.size)))
  | .enter e => enter .shared luck (.lock e .out) s c
  | .lock e place =>
    let b := bucketOf (hash e.key) s.table.size
    let r := Lock.Spin.seek (isTaken s.table b) place
    ({ s with table := setTaken s.table b r.1 },
      { c with task := if r.2 = .inside then .visit e else .lock e r.2 })
  | .visit e =>
    let h := hash e.key
    let b := bucketOf h s.table.size
    let r := e.perform h (entriesAt s.table b)
    ({ s with table := setEntries s.table b r.1 },
      { c with
        task := .unlock b (match r.2 with
          | some a => .answer a
          | none => .pushed s.table.size) })
  | .unlock b o => ({ s with table := setTaken s.table b false }, { c with task := .leave o })
  | .leave o => leave (.ofOutcome o) s c
  | .count buckets =>
    ({ s with length := s.length + 1 },
      { c with
        task := if isOverLoaded (s.length + 1) buckets then .growEnter
          else .answer (.found none) })
  | .growEnter => enter .exclusive luck .grow s c
  | .grow => (grow s, { c with task := .growLeave })
  | .growLeave => leave (.answer (.found none)) s c
  | .walkEnter => enter .shared luck (.walkLock 0 .out #[]) s c
  | .walkLock b place seen =>
    if b < s.table.size then
      let r := Lock.Spin.seek (isTaken s.table b) place
      ({ s with table := setTaken s.table b r.1 },
        { c with task := if r.2 = .inside then .walkVisit b seen else .walkLock b r.2 seen })
    else go (.leave (.answer (.entries seen.toList)))
  | .walkVisit b seen =>
    go (.walkUnlock b (seen ++ (entriesAt s.table b).map fun e => (e.key, e.value)))
  | .walkUnlock b seen =>
    ({ s with table := setTaken s.table b false }, { c with task := .walkLock (b + 1) .out seen })

end

/-- The machine of threads that use a map behind a gate, with a hash function. -/
def machine (G : Gate) {K V : Type} [DecidableEq K] (hash : K → UInt64) :
    Machine (Shared G K V) (Client G K V) (Call K V) (Answer K V) where
  start call c := { c with task := .ofCall call }
  step _ := step hash
  rests c := c.task.rests
  reply? c := c.task.reply?

/-- As many steps as a call needs of a thread by itself. -/
def fuel {G : Gate} {K V : Type} (s : Shared G K V) : Nat :=
  2 * G.patience + 4 * s.table.size + 16

end Growable.SharedMap
