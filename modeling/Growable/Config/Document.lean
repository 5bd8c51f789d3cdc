import Growable.Config
import Growable.Text.Document

/-!
# Settings from documents

A kind is its canonical name in quotes, or a table with that name as its only member and null as
the document of it. A configuration is a table that has each of the four settings once, in any
order and with any other members beside them, or a list of exactly the four settings.
-/

namespace Growable

open Text (Document)

namespace Kind

/-- The kind a document stands for. -/
def ofDocument? : Document → Option Kind
  | .quoted (some s) => ofName? s
  | .table [(some s, .null)] => ofName? s
  | _ => none

end Kind

namespace Config

/-- The number below `bound` a document stands for. -/
def numberBelow? (bound : Nat) : Document → Option Nat
  | .number (some n) => if n < bound then some n else none
  | _ => none

/-- The configuration whose settings are these four documents. -/
def ofFields? (strategy initial max retries : Document) : Option Config := do
  return {
    strategy := ← Kind.ofDocument? strategy
    initialCapacity := ← numberBelow? sizeBound initial
    maxCapacity := ← numberBelow? sizeBound max
    optimisticRetries := ← numberBelow? retryBound retries }

/-- The document of the only member with this name. -/
def onlyMember? (members : List (Option String × Document)) (name : String) : Option Document :=
  match members.filter (·.1 == some name) with
  | [(_, d)] => some d
  | _ => none

/-- The configuration a document stands for. Every member of a table must have a readable name. -/
def ofDocument? : Document → Option Config
  | .list [a, b, c, d] => ofFields? a b c d
  | .table members => do
    guard (members.all (·.1.isSome))
    ofFields? (← onlyMember? members "strategy") (← onlyMember? members "initial_capacity")
      (← onlyMember? members "max_capacity") (← onlyMember? members "optimistic_retries")
  | _ => none

end Config

end Growable
