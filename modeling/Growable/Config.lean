import Growable.Kind

/-!
# Settings of a shared array

The four settings, their defaults, the rule that makes a combination valid, and the two texts that
show a configuration: the one for logs and the one for documents.
-/

namespace Growable

/-- One more than the largest size or index. -/
def sizeBound : Nat := UInt64.size

/-- One more than the largest retry count. -/
def retryBound : Nat := UInt32.size

/-- The largest capacity a store may be configured for: the slots of sixteen bytes that the positive
half of the sizes has room for. -/
def Config.capacityLimit : Nat := (sizeBound / 2 - 1) / 16

/-- Settings of a shared array. -/
structure Config where
  /-- The strategy the array starts with. -/
  strategy : Kind := .fixedSize
  /-- Slots set aside at first, and again when the array is cleared. -/
  initialCapacity : Nat := 16
  /-- No store may have more slots than this. -/
  maxCapacity : Nat := Config.capacityLimit
  /-- How often a read is tried without the lock before it takes the lock. -/
  optimisticRetries : Nat := 8
  deriving DecidableEq, Repr

namespace Config

/-- The defaults with another strategy. -/
def ofKind (k : Kind) : Config := { strategy := k }

/-- What makes a combination of settings invalid. -/
inductive Fault where
  /-- No slot is allowed at all. -/
  | noCapacity
  /-- The largest capacity is above the limit. -/
  | overLimit (max : Nat)
  /-- The array would start with more slots than it may ever have. -/
  | initialOverMax (initial max : Nat)
  deriving DecidableEq, Repr

/-- The wording of a fault. -/
def Fault.message : Fault → String
  | .noCapacity => "max_capacity must be greater than 0"
  | .overLimit max => s!"max_capacity {max} exceeds the limit of {capacityLimit}"
  | .initialOverMax initial max => s!"initial_capacity {initial} exceeds max_capacity {max}"

/-- The first fault of a configuration, if it has one. -/
def fault? (c : Config) : Option Fault :=
  if c.maxCapacity = 0 then some .noCapacity
  else if capacityLimit < c.maxCapacity then some (.overLimit c.maxCapacity)
  else if c.maxCapacity < c.initialCapacity then
    some (.initialOverMax c.initialCapacity c.maxCapacity)
  else none

/-- Refuses a configuration with a fault. -/
def validate (c : Config) : Except Error Unit :=
  match c.fault? with
  | none => .ok ()
  | some f => .error (.invalidConfig f.message)

/-- Settings an array can be built with. -/
def Valid (c : Config) : Prop :=
  0 < c.maxCapacity ∧ c.maxCapacity ≤ capacityLimit ∧ c.initialCapacity ≤ c.maxCapacity

instance (c : Config) : Decidable c.Valid := by
  unfold Valid
  infer_instance

/-- The text that shows a configuration in a log. -/
def toLogText (c : Config) : String :=
  s!"ContainerConfig \x7b strategy: {c.strategy.name}, initial_capacity: {c.initialCapacity}, " ++
    s!"max_capacity: {c.maxCapacity}, optimistic_retries: {c.optimisticRetries} \x7d"

/-- The settings as a document: the four fields in their order, without blanks. -/
def toDocumentText (c : Config) : String :=
  s!"\x7b\"strategy\":\"{c.strategy.name}\",\"initial_capacity\":{c.initialCapacity}," ++
    s!"\"max_capacity\":{c.maxCapacity},\"optimistic_retries\":{c.optimisticRetries}\x7d"

theorem fault?_eq_none_iff (c : Config) : c.fault? = none ↔ c.Valid := by
  unfold fault? Valid
  split
  · simp; omega
  · split
    · simp; omega
    · split
      · simp; omega
      · simp; omega

theorem validate_eq_ok_iff (c : Config) : c.validate = .ok () ↔ c.Valid := by
  rw [← fault?_eq_none_iff]
  unfold validate
  split <;> simp_all

end Config

/-- The kind as a document: its canonical name in quotes. -/
def Kind.toDocumentText (k : Kind) : String := s!"\"{k.name}\""

end Growable
