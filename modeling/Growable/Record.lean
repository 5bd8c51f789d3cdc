import Growable.Config

/-!
# Log records

What the containers report while they work. A record is a fact; its level and its wording are
functions of it.
-/

namespace Growable

/-- How much a log record matters. -/
inductive Level where
  | debug
  | trace
  deriving DecidableEq, Repr

/-- The name of a level. -/
def Level.name : Level → String
  | .debug => "debug"
  | .trace => "trace"

/-- A fact reported to the log. -/
inductive Record where
  /-- A store of `old` slots makes room for one of `new` slots. -/
  | growing (old new : Nat)
  /-- Replaced stores were given back. -/
  | freed (count : Nat)
  /-- A read of `index` ran out of tries without the lock. -/
  | fellBack (index : Nat)
  /-- An array of `len` elements and `capacity` slots changes its strategy. -/
  | switching (old new : Kind) (len capacity : Nat)
  /-- An array of `len` elements is emptied. -/
  | clearing (kind : Kind) (len : Nat)
  /-- A configuration was read from the environment. -/
  | loaded (namePrefix : String) (config : Config)
  /-- A map of `len` entries spreads them over `new` buckets instead of `old`. -/
  | resizing (old new len : Nat)
  deriving DecidableEq, Repr

namespace Record

/-- Facts about one call's inner working are traced, changes of a whole container are for debugging. -/
def level : Record → Level
  | growing .. | freed _ | fellBack _ | resizing .. => .trace
  | switching .. | clearing .. | loaded .. => .debug

/-- The wording of a record. -/
def text : Record → String
  | growing a b => s!"growing backing store {a} -> {b}"
  | freed n => s!"freed {n} retired stores"
  | fellBack i => s!"stamped read of {i} fell back to the read lock"
  | switching a b len capacity =>
    s!"switching strategy {a.name} -> {b.name} (len {len}, capacity {capacity})"
  | clearing k len => s!"clearing {k.name} array of {len} elements"
  | loaded pre c => s!"loaded container config from {pre}* environment: {c.toLogText}"
  | resizing a b len => s!"resizing layout map {a} -> {b} buckets ({len} entries)"

end Record

end Growable
