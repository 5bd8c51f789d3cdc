import Growable.Lock.Gate

/-!
# The layout lock

A gate for data whose layout seldom changes. Shared mode, called access, is one counter; exclusive
mode, called change, is the word's top bit and is entered from zero only. Changes announce
themselves beside the word before they wait, and an announced change keeps new accesses out.
-/

namespace Growable.Lock

/-- A layout lock. -/
structure Layout where
  /-- The number of accesses, or the top bit alone during a change. -/
  state : UInt64 := 0
  /-- Changes that are announced and have not been granted, one for each thread that waits. -/
  pending : Nat := 0
  deriving DecidableEq, Repr

namespace Layout

/-- The state during a change. -/
def changeBit : UInt64 := 0x8000000000000000

/-- The number of threads in access. -/
def accessors (w : Layout) : UInt64 := w.state % changeBit

/-- Whether a thread is in a change. -/
def isChanging (w : Layout) : Bool := w.state / changeBit == 1

/-- Where a thread stands. -/
inductive Place where
  | out
  /-- No change was announced; the state is loaded next. -/
  | peek
  /-- `seen` had room for one more access; it is exchanged next. -/
  | join (seen : UInt64)
  | access
  /-- The change is announced; the state is exchanged next if it is zero. -/
  | claim
  /-- In a change, but the announcement still stands. -/
  | retract
  | change
  deriving DecidableEq, Repr

/-- There is room for one more access. -/
def admits (w : Layout) : Bool := !w.isChanging && w.accessors < changeBit - 1

/-- One step on the way into a mode. -/
def seek (m : Mode) (luck : Bool) (w : Layout) : Place → Layout × Place
  | .out =>
    match m with
    | .shared => (w, if w.pending = 0 then .peek else .out)
    | .exclusive => ({ w with pending := w.pending + 1 }, .claim)
  | .peek => (w, if w.admits then .join w.state else .out)
  | .join seen =>
    if luck && w.state == seen then ({ w with state := seen + 1 }, .access) else (w, .out)
  | .claim =>
    if luck && w.state == 0 then ({ w with state := changeBit }, .retract) else (w, .claim)
  | .retract => ({ w with pending := w.pending - 1 }, .change)
  | .access => (w, .access)
  | .change => (w, .change)

/-- Leaves the mode held. -/
def leave (w : Layout) : Place → Layout × Place
  | .access => ({ w with state := w.state - 1 }, .out)
  | .change => ({ w with state := 0 }, .out)
  | p => (w, p)

/-- The mode is granted. -/
def holds : Mode → Place → Bool
  | .shared, .access => true
  | .exclusive, .change => true
  | _, _ => false

/-- The text that shows the lock in a log. -/
def toLogText (w : Layout) : String :=
  s!"LayoutLock \x7b accessors: {w.accessors}, changing: {w.isChanging}, .. \x7d"

end Layout

/-- The layout lock as a gate. Only access may be tried once. -/
abbrev Gate.layout : Gate where
  Word := Layout
  Place := Layout.Place
  Stamp := Unit
  free := {}
  fresh := .out
  outside p := p == .out
  holds := Layout.holds
  seek := Layout.seek
  leave := Layout.leave
  attempt?
    | .shared => some .out
    | .exclusive => none
  retreat?
    | .out => some .out
    | _ => none
  enrolled _ := true
  enroll w p := (w, p)
  retire w p := (w, p)
  optimistic := false
  stamp? _ := none
  valid _ _ := false
  patience := 8

end Growable.Lock
