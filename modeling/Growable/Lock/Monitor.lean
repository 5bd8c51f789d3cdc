import Growable.Lock.Spin

/-!
# Monitors

A monitor is a lock with one mode, written as atomic steps: a thread that is inside is the only
one. A monitor may let the thread inside enter again; the thread has then to leave as often.
-/

namespace Growable.Lock

/-- A lock with one mode. -/
structure Monitor where
  /-- The lock's own state. -/
  Word : Type
  /-- Where a thread stands. -/
  Place : Type
  /-- A lock nobody has used. -/
  free : Word
  /-- A thread that is outside. -/
  outside : Place
  /-- How often the thread has entered and not left. -/
  depth : Place → Nat
  /-- One step of the thread numbered `me` on its way in. -/
  seek : (me : Nat) → Word → Place → Word × Place
  /-- A thread that is inside leaves once. -/
  leave : Word → Place → Word × Place
  /-- The thread inside may enter again. -/
  reenters : Bool
  /-- As many steps as a thread needs to enter a lock that nobody is in its way at. -/
  patience : Nat

namespace Monitor

/-- A mutex: its bit is set and found clear in one step. -/
abbrev mutex : Monitor where
  Word := Bool
  Place := Bool
  free := false
  outside := false
  depth
    | true => 1
    | false => 0
  seek _ taken p := if taken then (taken, p) else (true, true)
  leave _ _ := (false, false)
  reenters := false
  patience := 2

/-- The spin lock. -/
abbrev spin : Monitor where
  Word := Bool
  Place := Spin.Place
  free := false
  outside := .out
  depth
    | .inside => 1
    | _ => 0
  seek _ := Spin.seek
  leave _ _ := (false, .out)
  reenters := false
  patience := 2

/-- The owner of a lock that its owner may take again, and how often it has taken it. -/
structure Owner where
  thread : Nat
  times : Nat
  deriving DecidableEq, Repr

/-- A lock that its owner may take again. A place is how often the thread has entered. -/
abbrev reentrant : Monitor where
  Word := Option Owner
  Place := Nat
  free := none
  outside := 0
  depth p := p
  seek me w p :=
    match w with
    | none => (some ⟨me, 1⟩, 1)
    | some o => if o.thread = me then (some { o with times := o.times + 1 }, p + 1) else (w, p)
  leave w p :=
    match w with
    | some o => (if o.times ≤ 1 then none else some { o with times := o.times - 1 }, p - 1)
    | none => (w, p)
  reenters := true
  patience := 2

end Monitor

/-- The two locks that an array takes from elsewhere. Nothing is asked of them but what a mutex, and
a lock that its owner may take again, do for everybody; `Monitor.mutex` and `Monitor.reentrant` are
such locks, with as few steps as there can be. -/
structure Monitors where
  mutex : Monitor := .mutex
  reentrant : Monitor := .reentrant

end Growable.Lock
