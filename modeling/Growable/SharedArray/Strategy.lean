import Growable.Lock.Flagged
import Growable.Lock.Layout
import Growable.SharedArray.Gated
import Growable.SharedArray.Monitored
import Growable.SharedArray.Unguarded

/-!
# Strategies

A strategy is an array together with what keeps its threads apart: nothing, one of three monitors,
or one of three gates. Two of the monitors are not this library's own; `L` stands for them. This
module gives the seven kinds one face: a strategy is built around a store and a length, performs
calls for one thread by itself, and is taken apart into a store and a length again.
-/

namespace Growable.SharedArray

open Lock (Gate Monitor Monitors)

/-- The monitors an array may be under. -/
inductive MonitorKind where
  | mutex
  | reentrant
  | spin
  deriving DecidableEq, Repr

/-- The monitor of a kind. -/
abbrev MonitorKind.monitor (L : Monitors) : MonitorKind → Monitor
  | mutex => L.mutex
  | reentrant => L.reentrant
  | spin => .spin

/-- The gates an array may be under. -/
inductive GateKind where
  | stamped
  | layout
  | flagged
  deriving DecidableEq, Repr

/-- The gate of a kind. -/
abbrev GateKind.gate : GateKind → Gate
  | stamped => .stamped
  | layout => .layout
  | flagged => .flagged

/-- What keeps the threads of an array apart. -/
inductive Discipline where
  | unguarded
  | monitored (k : MonitorKind)
  | gated (k : GateKind)
  deriving DecidableEq, Repr

/-- What keeps the threads apart under each kind of strategy. -/
def Discipline.ofKind : Kind → Discipline
  | .fixedSize => unguarded
  | .synchronized => monitored .mutex
  | .reentrantLock => monitored .reentrant
  | .customLock => monitored .spin
  | .stampedLock => gated .stamped
  | .layoutLock => gated .layout
  | .fastLayoutLock => gated .flagged

/-- The kind of strategy with each discipline. -/
def Discipline.kind : Discipline → Kind
  | unguarded => .fixedSize
  | monitored .mutex => .synchronized
  | monitored .reentrant => .reentrantLock
  | monitored .spin => .customLock
  | gated .stamped => .stampedLock
  | gated .layout => .layoutLock
  | gated .flagged => .fastLayoutLock

theorem Discipline.kind_ofKind (k : Kind) : (ofKind k).kind = k := by
  cases k <;> rfl

/-- An array with what keeps its threads apart. -/
inductive Strategy (L : Monitors) (α : Type) where
  | unguarded (s : Unguarded.Shared α)
  | monitored (k : MonitorKind) (s : Monitored.Shared (k.monitor L) α)
  /-- `owner` is where the thread that owns the array stands at the gate. -/
  | gated (k : GateKind) (s : Gated.Shared k.gate α) (owner : k.gate.Place)

namespace Strategy

variable {L : Monitors} {α : Type}

/-- What keeps the threads apart. -/
def discipline : Strategy L α → Discipline
  | unguarded _ => .unguarded
  | monitored k _ => .monitored k
  | gated k _ _ => .gated k

/-- The kind of strategy. -/
def kind (s : Strategy L α) : Kind := s.discipline.kind

/-- A strategy of a kind around a store that holds `len` elements. -/
def ofStore (k : Kind) (store : Store α) (len : Nat) (config : Config) (limits : Limits := {}) :
    Strategy L α :=
  match Discipline.ofKind k with
  | .unguarded => unguarded (Unguarded.ofStore store len config limits)
  | .monitored k => monitored k (Monitored.ofStore (k.monitor L) store len config limits)
  | .gated k => gated k (Gated.ofStore k.gate store len config limits) k.gate.fresh

/-- The number of elements. -/
def length : Strategy L α → Nat
  | unguarded s => s.length
  | monitored _ s => s.length
  | gated _ s _ => s.committed

/-- The number of slots. -/
def capacity : Strategy L α → Nat
  | unguarded s => s.stores.capacity
  | monitored _ s => s.store.capacity
  | gated _ s _ => s.stores.capacity

/-- The current store. -/
def store : Strategy L α → Store α
  | unguarded s => s.stores.latest
  | monitored _ s => s.store
  | gated _ s _ => s.stores.latest

/-- The records of work done since they were last taken, the earliest first. -/
def records : Strategy L α → List Record
  | unguarded s => s.journal.reverse
  | monitored _ s => s.journal.reverse
  | gated _ s _ => s.journal.reverse

/-- The strategy once its records are taken. -/
def withoutRecords : Strategy L α → Strategy L α
  | unguarded s => unguarded { s with journal := [] }
  | monitored k s => monitored k { s with journal := [] }
  | gated k s p => gated k { s with journal := [] } p

/-- One thread performs a call by itself. -/
def perform [Inhabited α] (s : Strategy L α) (c : Call α) : Strategy L α × Answer α :=
  match s with
  | unguarded s =>
    let m := Unguarded.machine α
    let r := m.perform 0 (Unguarded.fuel s) c s (.rest none)
    (unguarded r.1, (m.reply? r.2).getD .waiting)
  | monitored k s =>
    let m := Monitored.machine (k.monitor L) α
    let r := m.perform 0 (Monitored.fuel (k.monitor L)) c s {}
    (monitored k r.1, (m.reply? r.2).getD .waiting)
  | gated k s owner =>
    let m := Gated.machine k.gate α
    let r := m.perform 0 (Gated.fuel s) c s { place := owner }
    (gated k r.1 r.2.place, (m.reply? r.2).getD .waiting)

/-- One thread appends until a call is not answered with an index: how many were appended, the last
index, and the answer that stopped it. -/
def appendAll [Inhabited α] (s : Strategy L α) (vs : List α) :
    Strategy L α × Nat × Option Nat × Option (Answer α) :=
  go s 0 none vs
where
  go (s : Strategy L α) (count : Nat) (last? : Option Nat) :
      List α → Strategy L α × Nat × Option Nat × Option (Answer α)
    | [] => (s, count, last?, none)
    | v :: vs =>
      match s.perform (.append v) with
      | (s, .index i) => go s (count + 1) (some i) vs
      | (s, stop) => (s, count, last?, some stop)

/-- Gives back replaced stores that are still kept; their number. -/
def reclaim : Strategy L α → Strategy L α × Nat
  | unguarded s =>
    let r := Unguarded.reclaim s
    (unguarded r.1, r.2)
  | s => (s, 0)

/-- The store and the length, after giving back what is still kept beside them. -/
def intoParts (s : Strategy L α) : Store α × Nat × List Record :=
  let s := s.reclaim.1
  (s.store, s.length, s.records)

end Strategy

end Growable.SharedArray
