import Growable.SharedArray.Strategy

/-!
# The shared array

A growable array whose strategy may be exchanged while it holds elements. It is built from a
configuration, which it keeps up to date; emptying it builds it anew from there.
-/

namespace Growable

open Lock (Monitors)
open SharedArray (Answer Call Strategy)

/-- A growable array shared between threads. -/
structure SharedArray (L : Monitors) (α : Type) where
  config : Config
  limits : Limits := {}
  strategy : Strategy L α
  /-- Records of what happened to the array as a whole and to strategies it had, the latest
  first. -/
  journal : List Record := []

namespace SharedArray

variable {L : Monitors} {α : Type}

/-- The kind of strategy in use. -/
def kind (a : SharedArray L α) : Kind := a.strategy.kind

/-- The number of elements. -/
def length (a : SharedArray L α) : Nat := a.strategy.length

/-- The number of slots. -/
def capacity (a : SharedArray L α) : Nat := a.strategy.capacity

/-- No element. -/
def isEmpty (a : SharedArray L α) : Bool := a.length == 0

/-- The text that shows an array in a log. -/
def toLogText (a : SharedArray L α) : String :=
  s!"ConcurrentArray \x7b strategy: {a.kind.name}, len: {a.length}, capacity: {a.capacity} \x7d"

/-- The records since they were last taken, the earliest first, and the array without them. -/
def takeRecords (a : SharedArray L α) : List Record × SharedArray L α :=
  (a.journal.reverse ++ a.strategy.records,
    { a with journal := [], strategy := a.strategy.withoutRecords })

section

variable [Inhabited α]

/-- An empty array, whether or not the configuration is valid. -/
def empty (config : Config) (limits : Limits := {}) : SharedArray L α where
  config := config
  limits := limits
  strategy := .ofStore config.strategy (.ofCapacity config.initialCapacity) 0 config limits

/-- An empty array, if the configuration is valid. -/
def ofConfig (config : Config) (limits : Limits := {}) : Except Error (SharedArray L α) :=
  config.validate.map fun _ => empty config limits

/-- An array of the values, if the configuration is valid and allows so many. -/
def ofValues (values : Array α) (config : Config) (limits : Limits := {}) :
    Except Error (SharedArray L α) := do
  config.validate
  if config.maxCapacity < values.size then
    throw (.capacityOverflow values.size config.maxCapacity)
  return {
    config
    limits
    strategy := .ofStore config.strategy (.ofValues values config.initialCapacity) values.size
      config limits }

/-- One thread performs a call by itself. -/
def perform (a : SharedArray L α) (c : Call α) : SharedArray L α × Answer α :=
  let r := a.strategy.perform c
  ({ a with strategy := r.1 }, r.2)

/-- Exchanges the strategy; the store and the length are carried over. -/
def setKind (a : SharedArray L α) (k : Kind) : SharedArray L α :=
  if a.kind = k then a
  else
    let (store, len, records) := a.strategy.intoParts
    { config := { a.config with strategy := k }
      limits := a.limits
      strategy := .ofStore k store len a.config a.limits
      journal := .switching a.kind k len store.capacity :: (records.reverse ++ a.journal) }

/-- Gives back replaced stores that are still kept; their number. -/
def reclaim (a : SharedArray L α) : SharedArray L α × Nat :=
  let r := a.strategy.reclaim
  ({ a with strategy := r.1 }, r.2)

/-- Drops every element and all room beyond the initial capacity. -/
def clear (a : SharedArray L α) : SharedArray L α :=
  { empty a.config a.limits with
    journal := .clearing a.kind a.length :: (a.strategy.records.reverse ++ a.journal) }

/-- Appends until a call is not answered with an index: how many were appended, the last index,
and the answer that stopped it. -/
def appendAll (a : SharedArray L α) (vs : List α) :
    SharedArray L α × Nat × Option Nat × Option (Answer α) :=
  let r := a.strategy.appendAll vs
  ({ a with strategy := r.1 }, r.2)

end

end SharedArray

end Growable
