import Growable.Lock.Roster
import Growable.Lock.Stamped

/-!
# The layout lock with a flag for each thread

A gate with the contract of the layout lock whose shared mode touches, in the usual case, nothing
but a flag that belongs to the thread. Exclusive mode pays for it: it holds a stamped lock, the
base, exclusively and turns over the flag of every thread.

* A thread in access has its flag at `access`, and at `inactive` after leaving.
* A change turns every flag from `inactive` to `change`, waiting for those at `access`. The flags
  stay at `change` when it ends, so the next access of each thread finds its flag turned over and
  recovers: it takes the base in shared mode, which waits for a change to end, sets its flag, and
  notes that the next change has flags to turn over again.
* Without such a note a change has nothing to wait for.
* Flags come in blocks that are put in place when first needed, all at `change`.
* A thread whose index is too high for a flag holds the base in shared mode during its access.
-/

namespace Growable.Lock

/-- A thread's flag. -/
inductive Flag where
  | inactive
  | access
  | change
  deriving DecidableEq, Repr

/-- A layout lock with flags. -/
structure Flagged where
  /-- Held exclusively by a change, and shared by accesses that recover or have no flag. -/
  base : Stamped := {}
  /-- Some flag may have left `change` since the last change. -/
  needToRecover : Bool := false
  /-- The flags; those of a block not in place yet are at `change`. -/
  flags : Vector Flag Roster.flagged := Vector.replicate Roster.flagged .change
  /-- The blocks in place. -/
  blocks : Vector Bool 32 := Vector.replicate 32 false
  /-- The indices of all threads. -/
  roster : Roster := {}

namespace Flagged

/-- The number of flags in a block. -/
def blockSize : Nat := 32

/-- The flag of a thread. -/
def flag (w : Flagged) (i : Nat) : Flag := w.flags[i]?.getD .change

/-- Sets the flag of a thread. -/
def setFlag (w : Flagged) (i : Nat) (f : Flag) : Flagged :=
  { w with flags := w.flags.setIfInBounds i f }

/-- The block is in place. -/
def hasBlock (w : Flagged) (b : Nat) : Bool := w.blocks[b]?.getD false

/-- Where a thread stands. `index?` is the index it has, if it has one yet. -/
inductive Place where
  | out (index? : Option Nat)
  /-- No index was given back; a new one is drawn next. -/
  | draw
  /-- The block of flag `i` is not in place; it is put there next. -/
  | install (i : Nat)
  /-- The flag `i` is exchanged next if it is inactive. -/
  | raise (i : Nat)
  /-- The flag `i` was turned over; the base is taken in shared mode. -/
  | recover (i : Nat) (base : Stamped.Place)
  /-- The base is held; the flag `i` is set next. -/
  | mark (i : Nat)
  /-- The flag `i` is set; a change is told next that it must turn flags over. -/
  | announce (i : Nat)
  /-- The change is told; the base is released next. -/
  | release (i : Nat)
  /-- In access by flag `i`. -/
  | access (i : Nat)
  /-- The index `i` has no flag; the base is taken in shared mode and held for the access. -/
  | borrow (i : Nat) (base : Stamped.Place)
  /-- The base is taken in exclusive mode. -/
  | claim (index? : Option Nat) (base : Stamped.Place)
  /-- The base is held; whether flags must be turned over is asked next. -/
  | ask (index? : Option Nat)
  /-- Flags must be turned over; their bound is loaded next. -/
  | bound (index? : Option Nat)
  /-- The block `b` is loaded next. -/
  | block (index? : Option Nat) (limit b : Nat)
  /-- The flag `i` is exchanged next if it is inactive. -/
  | turn (index? : Option Nat) (limit i : Nat)
  | change (index? : Option Nat)
  deriving DecidableEq, Repr

/-- The place of a thread that goes on with the flag after `i`: in the same block, in the next
one, or in the change once every flag below `limit` is turned over. -/
def afterTurn (index? : Option Nat) (limit i : Nat) : Place :=
  if (i + 1) % blockSize = 0 ∨ limit ≤ i + 1 then .block index? limit (i / blockSize + 1)
  else .turn index? limit (i + 1)

/-- One step into access of a thread outside that has the index `i`. -/
def begin (w : Flagged) (i : Nat) : Place :=
  if i < Roster.flagged then if w.hasBlock (i / blockSize) then .raise i else .install i
  else .borrow i .out

/-- The thread has an index. -/
def enrolled : Place → Bool
  | .out none | .draw => false
  | _ => true

/-- One step towards an index. -/
def enroll (w : Flagged) : Place → Flagged × Place
  | .out none =>
    match w.roster.scan with
    | (r, some i) => ({ w with roster := r }, .out (some i))
    | (r, none) => ({ w with roster := r }, .draw)
  | .draw =>
    let r := w.roster.draw
    ({ w with roster := r.1 }, .out (some r.2))
  | p => (w, p)

/-- One step on the way into a mode. -/
def seek (m : Mode) (luck : Bool) (w : Flagged) : Place → Flagged × Place
  | .out index? =>
    match m, index? with
    | .shared, some i => (w, w.begin i)
    | .shared, none => w.enroll (.out none)
    | .exclusive, index? => (w, .claim index? .out)
  | .draw => w.enroll .draw
  | .install i => ({ w with blocks := w.blocks.setIfInBounds (i / blockSize) true }, .raise i)
  | .raise i =>
    if w.flag i = .inactive then (w.setFlag i .access, .access i) else (w, .recover i .out)
  | .recover i p =>
    let r := Stamped.seek .shared luck w.base p
    ({ w with base := r.1 }, if r.2 = .shared then .mark i else .recover i r.2)
  | .mark i => (w.setFlag i .access, .announce i)
  | .announce i => ({ w with needToRecover := true }, .release i)
  | .release i => ({ w with base := (Stamped.leave w.base .shared).1 }, .access i)
  | .access i => (w, .access i)
  | .borrow i p =>
    let r := Stamped.seek .shared luck w.base p
    ({ w with base := r.1 }, .borrow i r.2)
  | .claim index? p =>
    let r := Stamped.seek .exclusive luck w.base p
    ({ w with base := r.1 }, if r.2 = .exclusive then .ask index? else .claim index? r.2)
  | .ask index? =>
    ({ w with needToRecover := false }, if w.needToRecover then .bound index? else .change index?)
  | .bound index? => (w, .block index? w.roster.highWater 0)
  | .block index? limit b =>
    if 32 ≤ b ∨ limit ≤ b * blockSize then (w, .change index?)
    else (w, if w.hasBlock b then .turn index? limit (b * blockSize) else .block index? limit (b + 1))
  | .turn index? limit i =>
    match w.flag i with
    | .inactive => (w.setFlag i .change, afterTurn index? limit i)
    | .change => (w, afterTurn index? limit i)
    | .access => (w, .turn index? limit i)
  | .change index? => (w, .change index?)

/-- Leaves the mode held. -/
def leave (w : Flagged) : Place → Flagged × Place
  | .access i => (w.setFlag i .inactive, .out (some i))
  | .borrow i .shared => ({ w with base := (Stamped.leave w.base .shared).1 }, .out (some i))
  | .change index? => ({ w with base := (Stamped.leave w.base .exclusive).1 }, .out index?)
  | p => (w, p)

/-- The mode is granted. -/
def holds : Mode → Place → Bool
  | .shared, .access _ => true
  | .shared, .borrow _ .shared => true
  | .exclusive, .change _ => true
  | _, _ => false

/-- A thread that ends gives its index back. -/
def retire (w : Flagged) : Place → Flagged × Place
  | .out (some i) => ({ w with roster := w.roster.release i }, .out none)
  | p => (w, p)

/-- The text that shows the lock in a log. -/
def toLogText (w : Flagged) : String :=
  s!"FastLayoutLock \x7b base: {w.base.toLogText}, need_to_recover: {w.needToRecover}, .. \x7d"

end Flagged

/-- The layout lock with flags as a gate. -/
abbrev Gate.flagged : Gate where
  Word := Flagged
  Place := Flagged.Place
  Stamp := Unit
  free := {}
  fresh := .out none
  outside
    | .out _ => true
    | _ => false
  holds := Flagged.holds
  seek := Flagged.seek
  leave := Flagged.leave
  attempt? _ := none
  retreat? _ := none
  enrolled := Flagged.enrolled
  enroll := Flagged.enroll
  retire := Flagged.retire
  optimistic := false
  stamp? _ := none
  valid _ _ := false
  patience := 16 + Roster.flagged + 32

end Growable.Lock
