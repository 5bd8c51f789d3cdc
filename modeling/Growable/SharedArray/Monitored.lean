import Growable.Lock.Monitor
import Growable.SharedArray.Call

/-!
# Strategies under a monitor

The store and the length are used by no thread but the one inside a monitor, so each call has the
array to itself. An append takes several steps inside; where the monitor lets its owner enter
again, an append that needs room enters a second time to make it.
-/

namespace Growable.SharedArray.Monitored

open Lock (Monitor)

/-- An array under a monitor. -/
structure Shared (M : Monitor) (α : Type) where
  word : M.Word := M.free
  store : Store α
  length : Nat
  maxCapacity : Nat
  limits : Limits := {}
  /-- Records of work done, the latest first. -/
  journal : List Record := []

/-- What a thread is doing. -/
inductive Task (α : Type) where
  /-- Nothing; the last call, if there was one, was answered so. -/
  | rest (last? : Option (Answer α))
  /-- Enters the monitor. -/
  | enter (c : Call α)
  /-- Inside: does all of a call but an append. -/
  | work (c : Call α)
  /-- Append: finds the index and whether there is room. -/
  | next (v : α)
  /-- Append without room: enters the monitor again. -/
  | enterAgain (i : Nat) (v : α)
  /-- Append: makes room for slot `i`. -/
  | grow (i : Nat) (v : α)
  /-- Append: leaves the inner of two entries. -/
  | leaveAgain (i : Nat) (v : α)
  /-- Append: stores into slot `i`. -/
  | place (i : Nat) (v : α)
  /-- Append: raises the length. -/
  | raise (i : Nat)
  /-- Leaves the monitor. -/
  | leave (a : Answer α)

/-- A thread that uses an array under a monitor. -/
structure Client (M : Monitor) (α : Type) where
  place : M.Place := M.outside
  task : Task α := .rest none

section

variable {M : Monitor} {α : Type} [Inhabited α]

/-- Makes room for `required` slots; the answer to the call if there can be none. -/
def makeRoom (s : Shared M α) (required : Nat) : Shared M α × Option (Answer α) :=
  if required ≤ s.store.capacity then (s, none)
  else
    match capacityFor s.store.capacity required s.maxCapacity with
    | .error e => (s, some (.refused e))
    | .ok new =>
      let told := { s with journal := .growing s.store.capacity new :: s.journal }
      if s.limits.holds new then ({ told with store := s.store.grown new }, none)
      else (told, some .overflowed)

/-- What a call other than an append does and is answered by a thread inside. -/
def work (s : Shared M α) : Call α → Shared M α × Answer α
  | .append _ => (s, .waiting)
  | .read i =>
    match checkBounds i s.length with
    | .error e => (s, .refused e)
    | .ok _ => (s, ((s.store.get? i).map .value).getD .brokenOff)
  | .write i v =>
    match checkBounds i s.length with
    | .error e => (s, .refused e)
    | .ok _ =>
      if i < s.store.capacity then ({ s with store := s.store.set i v }, .done)
      else (s, .brokenOff)
  | .ensureCapacity n =>
    let r := makeRoom s n
    (r.1, r.2.getD .done)
  | .toArray => (s, .values (s.store.take s.length))
  | .length => (s, .count s.length)
  | .capacity => (s, .count s.store.capacity)

/-- One step of the thread numbered `me`. -/
def step (me : Nat) (s : Shared M α) (c : Client M α) : Shared M α × Client M α :=
  match c.task with
  | .rest _ => (s, c)
  | .enter call =>
    let r := M.seek me s.word c.place
    ({ s with word := r.1 },
      ⟨r.2,
        if M.depth r.2 = 1 then
          match call with
          | .append v => .next v
          | call => .work call
        else .enter call⟩)
  | .work call =>
    let r := work s call
    (r.1, { c with task := .leave r.2 })
  | .next v =>
    (s, { c with
      task :=
        if s.length < s.maxCapacity then
          if M.reenters then
            if s.length < s.store.capacity then .place s.length v else .enterAgain s.length v
          else .grow s.length v
        else .leave (.full s.limits s.length s.maxCapacity) })
  | .enterAgain i v =>
    let r := M.seek me s.word c.place
    ({ s with word := r.1 }, ⟨r.2, if M.depth r.2 = 2 then .grow i v else .enterAgain i v⟩)
  | .grow i v =>
    match makeRoom s (i + 1) with
    | (s, some a) => (s, { c with task := .leave a })
    | (s, none) => (s, { c with task := if M.reenters then .leaveAgain i v else .place i v })
  | .leaveAgain i v =>
    let r := M.leave s.word c.place
    ({ s with word := r.1 }, ⟨r.2, .place i v⟩)
  | .place i v =>
    if i < s.store.capacity then
      ({ s with store := s.store.set i v }, { c with task := .raise i })
    else (s, { c with task := .leave .brokenOff })
  | .raise i => ({ s with length := i + 1 }, { c with task := .leave (.index i) })
  | .leave a =>
    let r := M.leave s.word c.place
    ({ s with word := r.1 }, ⟨r.2, if M.depth r.2 = 0 then .rest (some a) else .leave a⟩)

end

/-- The machine of threads that use an array under a monitor. -/
def machine (M : Monitor) (α : Type) [Inhabited α] :
    Machine (Shared M α) (Client M α) (Call α) (Answer α) where
  start call c := { c with task := .enter call }
  step me _ := step me
  rests c :=
    match c.task with
    | .rest _ => true
    | _ => false
  reply? c :=
    match c.task with
    | .rest last? => last?
    | _ => none

/-- An array around a store that holds `len` elements. -/
def ofStore (M : Monitor) {α : Type} (store : Store α) (len : Nat) (config : Config)
    (limits : Limits := {}) : Shared M α where
  store := store
  length := len
  maxCapacity := config.maxCapacity
  limits := limits

/-- As many steps as a call needs of a thread by itself. -/
def fuel (M : Monitor) : Nat := 2 * M.patience + 16

end Growable.SharedArray.Monitored
