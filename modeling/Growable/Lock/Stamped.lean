import Growable.Lock.Gate

/-!
# The stamped lock

A gate whose word counts versions. From its low end the word holds the number of threads in shared
mode (sixteen bits), one bit that is set while a thread is in exclusive mode, and the version. To
leave exclusive mode is to add that bit once more, which clears it and carries into the version.

A stamp is the word without the count of shared holders, so shared mode never outdates a stamp and
exclusive mode always does. Threads that wait for exclusive mode are counted beside the word, and
while there are any no thread enters by waiting for shared mode; a single attempt still may.
-/

namespace Growable.Lock

/-- A stamped lock. -/
structure Stamped where
  /-- Version, exclusive bit and count of shared holders. It starts at version 1. -/
  state : UInt64 := 0x20000
  /-- Threads that wait for exclusive mode. -/
  waiting : UInt32 := 0
  deriving DecidableEq, Repr

namespace Stamped

/-- The exclusive bit. -/
def exclusiveBit : UInt64 := 0x10000

/-- The number of threads in shared mode. -/
def readers (w : Stamped) : UInt64 := w.state % 0x10000

/-- Whether a thread is in exclusive mode. -/
def isExclusive (w : Stamped) : Bool := w.state / 0x10000 % 2 == 1

/-- How often exclusive mode was left, and one more. -/
def version (w : Stamped) : UInt64 := w.state / 0x20000

/-- The state without the count of shared holders. -/
def stampBits (state : UInt64) : UInt64 := state - state % 0x10000

/-- Proof of having seen the lock at some version. -/
structure Stamp where
  bits : UInt64
  deriving DecidableEq, Repr

/-- The version seen. -/
def Stamp.version (s : Stamp) : UInt64 := s.bits / 0x20000

/-- A stamp, unless a thread is in exclusive mode. -/
def stamp? (w : Stamped) : Option Stamp :=
  if w.isExclusive then none else some ⟨stampBits w.state⟩

/-- The state is the stamp's, shared holders aside. -/
def valid (w : Stamped) (s : Stamp) : Bool := stampBits w.state == s.bits

/-- Where a thread stands. -/
inductive Place where
  | out
  /-- No writer waits; the state is loaded next. -/
  | peek
  /-- `seen` had room for one more shared holder; it is exchanged next. -/
  | join (seen : UInt64)
  | shared
  /-- `seen` was free; it is exchanged next, for the first time. -/
  | claim (seen : UInt64)
  /-- The first try failed; the thread counts itself as waiting next. -/
  | enlist
  /-- Counted as waiting; the state is loaded next. -/
  | queued
  /-- Counted as waiting; `seen` was free and is exchanged next. -/
  | queuedClaim (seen : UInt64)
  /-- In exclusive mode, but still counted as waiting. -/
  | delist
  | exclusive
  deriving DecidableEq, Repr

/-- There is room for one more shared holder. -/
def admits (w : Stamped) : Bool := !w.isExclusive && w.readers < 0xFFFF

/-- Nobody holds the lock. -/
def isFree (w : Stamped) : Bool := w.state % 0x20000 == 0

/-- One step on the way into a mode. -/
def seek (m : Mode) (luck : Bool) (w : Stamped) : Place → Stamped × Place
  | .out =>
    match m with
    | .shared => (w, if w.waiting = 0 then .peek else .out)
    | .exclusive => (w, if w.isFree then .claim w.state else .enlist)
  | .peek => (w, if w.admits then .join w.state else .out)
  | .join seen =>
    if luck && w.state == seen then ({ w with state := seen + 1 }, .shared) else (w, .out)
  | .claim seen =>
    if w.state == seen then ({ w with state := seen + exclusiveBit }, .exclusive)
    else (w, .enlist)
  | .enlist => ({ w with waiting := w.waiting + 1 }, .queued)
  | .queued => (w, if w.isFree then .queuedClaim w.state else .queued)
  | .queuedClaim seen =>
    if w.state == seen then ({ w with state := seen + exclusiveBit }, .delist) else (w, .queued)
  | .delist => ({ w with waiting := w.waiting - 1 }, .exclusive)
  | .shared => (w, .shared)
  | .exclusive => (w, .exclusive)

/-- Leaves the mode held. -/
def leave (w : Stamped) : Place → Stamped × Place
  | .shared => ({ w with state := w.state - 1 }, .out)
  | .exclusive => ({ w with state := w.state + exclusiveBit }, .out)
  | p => (w, p)

/-- The mode is granted. -/
def holds : Mode → Place → Bool
  | .shared, .shared => true
  | .exclusive, .exclusive => true
  | _, _ => false

/-- The text that shows the lock in a log. -/
def toLogText (w : Stamped) : String :=
  s!"StampedLock \x7b version: {w.version}, write_locked: {w.isExclusive}, readers: {w.readers} \x7d"

end Stamped

/-- The stamped lock as a gate. A single attempt at exclusive mode is lost where a waiting thread
would enlist. -/
abbrev Gate.stamped : Gate where
  Word := Stamped
  Place := Stamped.Place
  Stamp := Stamped.Stamp
  free := {}
  fresh := .out
  outside p := p == .out
  holds := Stamped.holds
  seek := Stamped.seek
  leave := Stamped.leave
  attempt?
    | .shared => some .peek
    | .exclusive => some .out
  retreat?
    | .out | .enlist => some .out
    | _ => none
  enrolled _ := true
  enroll w p := (w, p)
  retire w p := (w, p)
  optimistic := true
  stamp? := Stamped.stamp?
  valid := Stamped.valid
  patience := 8

end Growable.Lock
