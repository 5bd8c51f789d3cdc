/-!
# Errors of the containers

What an operation of a container refuses to do, and the wording of each refusal. A refused
operation changes nothing.
-/

namespace Growable

/-- Why an operation was refused. -/
inductive Error where
  /-- There is no element `index`: the length was `len` when the access was checked. -/
  | indexOutOfBounds (index len : Nat)
  /-- The operation needs `requested` slots and only `max` are allowed. -/
  | capacityOverflow (requested max : Nat)
  /-- A setting was rejected. -/
  | invalidConfig (message : String)
  /-- No kind of strategy goes by this name. -/
  | unknownStrategy (name : String)
  deriving DecidableEq, Repr

namespace Error

/-- The text shown to a user. -/
def message : Error → String
  | indexOutOfBounds index len => s!"index out of bounds: index {index}, len {len}"
  | capacityOverflow requested max => s!"capacity overflow: requested {requested}, max {max}"
  | invalidConfig message => s!"invalid configuration: {message}"
  | unknownStrategy name => s!"unknown strategy: {name}"

/-- A short word for the class of error, for counting and for logs. -/
def category : Error → String
  | indexOutOfBounds .. => "bounds"
  | capacityOverflow .. => "capacity"
  | invalidConfig _ => "config"
  | unknownStrategy _ => "strategy"

end Error

/-- Refuses an index that is not below the length. -/
def checkBounds (index len : Nat) : Except Error Unit :=
  if index < len then .ok () else .error (.indexOutOfBounds index len)

theorem checkBounds_eq_ok_iff {index len : Nat} : checkBounds index len = .ok () ↔ index < len := by
  unfold checkBounds
  split <;> simp_all

theorem checkBounds_of_le {index len : Nat} (h : len ≤ index) :
    checkBounds index len = .error (.indexOutOfBounds index len) :=
  if_neg (Nat.not_lt.mpr h)

end Growable
