import Growable.Lock.Gate
import Growable.SharedArray.Call

/-!
# Strategies under a gate

A gate guards which store is current; the slots need no lock. Reads, writes and appends that fit
run in shared mode, side by side. Only growth takes the gate exclusively, copies the store slot by
slot and makes the copy current.

An append has three parts. It reserves an index, unless all that are allowed are taken. It writes
the slot, in shared mode if there is one and after growth if not. Then, holding no lock, it waits
for its turn to commit: indices are committed in order, and the committed ones are the length. So
every index below the length holds a value that was written. An append that is broken off because
the machine has no room for the growth gives up the index it reserved, and nobody commits it.

Where the gate hands out stamps, a read is first tried without the gate: length, store and slot are
loaded, and count if the stamp is still valid afterwards. After the allowed number of tries the read
enters the gate.
-/

namespace Growable.SharedArray.Gated

open Lock (Gate)

/-- An array under a gate. -/
structure Shared (G : Gate) (α : Type) where
  gate : G.Word := G.free
  stores : Stores α
  /-- Indices handed out to appends. -/
  reserved : Nat
  /-- Indices whose appends are complete; the length. -/
  committed : Nat
  maxCapacity : Nat
  limits : Limits := {}
  /-- Tries of a read without the gate. -/
  tries : Nat
  /-- Records of work done, the latest first. -/
  journal : List Record := []

/-- What a thread is doing. -/
inductive Task (G : Gate) (α : Type) where
  /-- Nothing; the last call, if there was one, was answered so. -/
  | rest (last? : Option (Answer α))
  /-- Loads the length for an answer. -/
  | length
  /-- Finds the capacity for an answer, or to see whether it is at least `need?`: loads the current
  store's name if the gate allows it from outside, and enters otherwise. -/
  | measure (need? : Option Nat)
  /-- In shared mode: finds the capacity. -/
  | measureInside (need? : Option Nat)
  /-- Has found the capacity; leaves. -/
  | measureLeave (need? : Option Nat) (found : Nat)
  /-- Append: loads the number of reserved indices. -/
  | reserve (v : α)
  /-- Append: exchanges the number `seen` of reserved indices for one more. -/
  | reserveSwap (v : α) (seen : Nat)
  /-- Append: enters shared mode. -/
  | placeEnter (i : Nat) (v : α)
  /-- Append: loads the current store's name. -/
  | placePointer (i : Nat) (v : α)
  /-- Append: stores into slot `i` of store `p`, if it has one. -/
  | placeSlot (i : Nat) (v : α) (p : Nat)
  /-- Append: leaves shared mode, with the slot written or not. -/
  | placeLeave (i : Nat) (v : α) (written : Bool)
  /-- Growth: enters exclusive mode. -/
  | growEnter (g : Growth α)
  /-- Growth: loads the current store's name, and compares its capacity with what is needed. -/
  | growPointer (g : Growth α)
  /-- Growth: loads the next slot of store `p` into the buffer. -/
  | copy (g : Growth α) (p target : Nat) (buffer : Array α)
  /-- Growth: makes the buffer the current store. -/
  | publish (g : Growth α) (target : Nat) (buffer : Array α)
  /-- Append, after growth: loads the current store's name. -/
  | fitPointer (i : Nat) (v : α)
  /-- Append, after growth: stores into slot `i` of store `p`. -/
  | fitSlot (i : Nat) (v : α) (p : Nat)
  /-- Growth: leaves exclusive mode. -/
  | growLeave (g : Growth α)
  /-- Append: looks whether every earlier index is committed. -/
  | await (i : Nat)
  /-- Append: commits index `i`. -/
  | commit (i : Nat)
  /-- Read without the gate: starts with the number of tries allowed. -/
  | tryAll (i : Nat)
  /-- Read without the gate: takes a stamp, or gives up after the last try. -/
  | tryStamp (i left : Nat)
  /-- Read without the gate: loads the length. -/
  | tryLength (i left : Nat) (s : G.Stamp)
  /-- Read without the gate: loads the current store's name. -/
  | tryPointer (i left : Nat) (s : G.Stamp) (len : Nat)
  /-- Read without the gate: loads slot `i` of store `p`. -/
  | trySlot (i left : Nat) (s : G.Stamp) (len p : Nat)
  /-- Read without the gate: checks the stamp. -/
  | tryValid (i left : Nat) (s : G.Stamp) (len : Nat) (v? : Option α)
  /-- Read or write: enters shared mode. -/
  | accessEnter (i : Nat) (a : Access α)
  /-- Read or write: loads the length. -/
  | accessLength (i : Nat) (a : Access α)
  /-- Read or write: loads the current store's name. -/
  | accessPointer (i : Nat) (a : Access α)
  /-- Read or write: accesses slot `i` of store `p`. -/
  | accessSlot (i : Nat) (a : Access α) (p : Nat)
  /-- Copy: enters shared mode. -/
  | collectEnter
  /-- Copy: loads the current store's name. -/
  | collectPointer
  /-- Copy: loads the length. -/
  | collectLength (p : Nat)
  /-- Copy: loads the next of `n` slots of store `p`. -/
  | collect (p n : Nat) (buffer : Array α)
  /-- Leaves the mode held, and answers. -/
  | leave (a : Answer α)

/-- A thread that uses an array under a gate. -/
structure Client (G : Gate) (α : Type) where
  place : G.Place := G.fresh
  task : Task G α := .rest none

namespace Task

variable {G : Gate} {α : Type}

/-- The thread rests. -/
def rests : Task G α → Bool
  | rest _ => true
  | _ => false

/-- The answer to the last call, once there is one. -/
def reply? : Task G α → Option (Answer α)
  | rest last? => last?
  | _ => none

/-- The call is answered. -/
def answer (a : Answer α) : Task G α := rest (some a)

/-- The first step of a call. -/
def ofCall : Call α → Task G α
  | .append v => reserve v
  | .read i => if G.optimistic then tryAll i else accessEnter i .load
  | .write i v => accessEnter i (.store v)
  | .ensureCapacity n => measure (some n)
  | .toArray => collectEnter
  | .length => length
  | .capacity => measure none

/-- What comes after the capacity was found. -/
def afterMeasure (need? : Option Nat) (found : Nat) : Task G α :=
  match need? with
  | none => answer (.count found)
  | some n => if n ≤ found then answer .done else growEnter (.reserve n)

/-- What comes in exclusive mode after a growth. -/
def afterGrowth : Growth α → Task G α
  | .fit i v => fitPointer i v
  | .reserve n => growLeave (.reserve n)

/-- What comes after a read of `len` and of a slot that turned out to be valid. -/
def afterValid (i len : Nat) (v? : Option α) : Task G α :=
  match v? with
  | some v => if i < len then answer (.value v) else answer (.refused (.indexOutOfBounds i len))
  | none => answer (.refused (.indexOutOfBounds i len))

/-- Goes on with an append that saw `reserved` indices taken. -/
def ofReserved (limits : Limits) (v : α) (reserved maxCapacity : Nat) : Task G α :=
  if reserved < maxCapacity then reserveSwap v reserved
  else answer (.full limits reserved maxCapacity)

end Task

section

variable {G : Gate} {α : Type} [Inhabited α]

/-- One step of a thread towards a mode; with `next` once it is granted. -/
def enter (m : Lock.Mode) (luck : Bool) (next : Task G α) (s : Shared G α) (c : Client G α) :
    Shared G α × Client G α :=
  let r := G.seek m luck s.gate c.place
  ({ s with gate := r.1 }, ⟨r.2, if G.holds m r.2 then next else c.task⟩)

/-- The step of a thread out of the mode it holds. -/
def leave (next : Task G α) (s : Shared G α) (c : Client G α) : Shared G α × Client G α :=
  let r := G.leave s.gate c.place
  ({ s with gate := r.1 }, ⟨r.2, next⟩)

/-- One step of a thread. -/
def step (luck : Bool) (s : Shared G α) (c : Client G α) : Shared G α × Client G α :=
  let go (task : Task G α) : Shared G α × Client G α := (s, { c with task })
  match c.task with
  | .rest _ => (s, c)
  | .length => go (.answer (.count s.committed))
  | .measure need? =>
    if G.optimistic then go (.afterMeasure need? s.stores.capacity)
    else enter .shared luck (.measureInside need?) s c
  | .measureInside need? => go (.measureLeave need? s.stores.capacity)
  | .measureLeave need? found => leave (.afterMeasure need? found) s c
  | .reserve v => go (.ofReserved s.limits v s.reserved s.maxCapacity)
  | .reserveSwap v seen =>
    if luck && s.reserved == seen then
      ({ s with reserved := seen + 1 }, { c with task := .placeEnter seen v })
    else go (.ofReserved s.limits v s.reserved s.maxCapacity)
  | .placeEnter i v => enter .shared luck (.placePointer i v) s c
  | .placePointer i v => go (.placeSlot i v s.stores.current)
  | .placeSlot i v p =>
    if i < s.stores.capacityOf p then
      ({ s with stores := s.stores.set p i v }, { c with task := .placeLeave i v true })
    else go (.placeLeave i v false)
  | .placeLeave i v written => leave (if written then .await i else .growEnter (.fit i v)) s c
  | .growEnter g => enter .exclusive luck (.growPointer g) s c
  | .growPointer g =>
    let old := s.stores.capacity
    if g.required ≤ old then go (.afterGrowth g)
    else
      match capacityFor old g.required s.maxCapacity with
      | .error e => go (.leave (.refused e))
      | .ok new =>
        ({ s with journal := .growing old new :: s.journal },
          { c with
            task :=
              if s.limits.holds new then .copy g s.stores.current new #[]
              else .leave .overflowed })
  | .copy g p target buffer =>
    match s.stores.get? p buffer.size with
    | some v => go (.copy g p target (buffer.push v))
    | none => go (.publish g target buffer)
  | .publish g target buffer =>
    ({ s with stores := s.stores.publish (.ofValues buffer target) },
      { c with task := .afterGrowth g })
  | .fitPointer i v => go (.fitSlot i v s.stores.current)
  | .fitSlot i v p =>
    if i < s.stores.capacityOf p then
      ({ s with stores := s.stores.set p i v }, { c with task := .growLeave (.fit i v) })
    else go (.leave .brokenOff)
  | .growLeave g =>
    leave (match g with
      | .fit i _ => .await i
      | .reserve _ => .answer .done) s c
  | .await i => go (if s.committed = i then .commit i else .await i)
  | .commit i => ({ s with committed := i + 1 }, { c with task := .answer (.index i) })
  | .tryAll i => go (.tryStamp i s.tries)
  | .tryStamp i 0 =>
    ({ s with journal := .fellBack i :: s.journal }, { c with task := .accessEnter i .load })
  | .tryStamp i (left + 1) =>
    go (match G.stamp? s.gate with
      | some stamp => .tryLength i left stamp
      | none => .tryStamp i left)
  | .tryLength i left stamp => go (.tryPointer i left stamp s.committed)
  | .tryPointer i left stamp len => go (.trySlot i left stamp len s.stores.current)
  | .trySlot i left stamp len p => go (.tryValid i left stamp len (s.stores.get? p i))
  | .tryValid i left stamp len v? =>
    go (if G.valid s.gate stamp then .afterValid i len v? else .tryStamp i left)
  | .accessEnter i a => enter .shared luck (.accessLength i a) s c
  | .accessLength i a =>
    go (match checkBounds i s.committed with
      | .ok _ => .accessPointer i a
      | .error e => .leave (.refused e))
  | .accessPointer i a => go (.accessSlot i a s.stores.current)
  | .accessSlot i a p =>
    match a.perform s.stores p i with
    | some (stores, r) => ({ s with stores }, { c with task := .leave r })
    | none => go (.leave .brokenOff)
  | .collectEnter => enter .shared luck .collectPointer s c
  | .collectPointer => go (.collectLength s.stores.current)
  | .collectLength p => go (.collect p (min s.committed (s.stores.capacityOf p)) #[])
  | .collect p n buffer =>
    if buffer.size < n then
      match s.stores.get? p buffer.size with
      | some v => go (.collect p n (buffer.push v))
      | none => go (.leave .brokenOff)
    else go (.leave (.values buffer))
  | .leave a => leave (.answer a) s c

end

/-- The machine of threads that use an array under a gate. -/
def machine (G : Gate) (α : Type) [Inhabited α] :
    Machine (Shared G α) (Client G α) (Call α) (Answer α) where
  start call c := { c with task := .ofCall call }
  step _ := step
  rests c := c.task.rests
  reply? c := c.task.reply?

/-- An array around a store that holds `len` elements. -/
def ofStore (G : Gate) {α : Type} (store : Store α) (len : Nat) (config : Config)
    (limits : Limits := {}) : Shared G α where
  stores := .single store
  reserved := len
  committed := len
  maxCapacity := config.maxCapacity
  limits := limits
  tries := config.optimisticRetries

/-- As many steps as a call needs of a thread by itself. -/
def fuel {G : Gate} {α : Type} (s : Shared G α) : Nat :=
  2 * G.patience + s.stores.capacity + s.tries + 32

end Growable.SharedArray.Gated
