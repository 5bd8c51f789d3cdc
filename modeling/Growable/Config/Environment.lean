import Growable.Record
import Growable.Text.Blank
import Growable.Text.Numeral

/-!
# Settings from the environment

Four variables, named by a common beginning and the name of the setting, replace the defaults. A
variable that is not set keeps the default; one that is set must be well formed. The variables are
looked at in a fixed order and the first fault decides; whether the settings fit together is asked
last.
-/

namespace Growable

/-- The value of an environment variable. -/
inductive Setting where
  | text (s : String)
  /-- The bytes of the value are no text. -/
  | notUnicode
  deriving DecidableEq, Repr

/-- The value with these bytes. -/
def Setting.ofBytes (bytes : ByteArray) : Setting :=
  match String.fromUTF8? bytes with
  | some s => .text s
  | none => .notUnicode

/-- The variables that are set, each with its value; the first entry of a name counts. -/
structure Environment where
  entries : List (String × Setting) := []

namespace Environment

/-- The value of a variable. -/
def get? (e : Environment) (name : String) : Option Setting :=
  e.entries.lookup name

/-- Sets a variable, whatever it was before. -/
def set (e : Environment) (name : String) (value : Setting) : Environment :=
  ⟨(name, value) :: e.entries⟩

end Environment

namespace Config

/-- The beginning of the variables' names unless another is asked for. -/
def defaultNamePrefix : String := "STRATA_"

/-- Why the environment gives no configuration. -/
inductive LoadFault where
  /-- The value of a variable is no text. -/
  | notUnicode (name : String)
  /-- The strategy's name is not known. -/
  | unknownStrategy (name : String)
  /-- The value of a variable is no number in range. -/
  | badNumber (name value : String) (fault : Text.NumeralFault)
  /-- The settings do not fit together. -/
  | invalid (fault : Fault)
  deriving DecidableEq, Repr

/-- The error a fault is reported as. -/
def LoadFault.toError : LoadFault → Error
  | notUnicode name => .invalidConfig s!"{name} is not valid unicode"
  | unknownStrategy name => .unknownStrategy name
  | badNumber name value fault => .invalidConfig s!"{name}={value}: {fault.message}"
  | invalid fault => .invalidConfig fault.message

/-- The trimmed value of a variable, if it is set. -/
def lookupText (env : Environment) (name : String) : Except LoadFault (Option String) :=
  match env.get? name with
  | none => .ok none
  | some .notUnicode => .error (.notUnicode name)
  | some (.text s) => .ok (some (Text.trim s))

/-- The kind a variable names. -/
def lookupKind (env : Environment) (name : String) (unset : Kind) : Except LoadFault Kind := do
  match ← lookupText env name with
  | none => return unset
  | some s =>
    match Kind.ofText s with
    | .ok k => return k
    | .error _ => throw (.unknownStrategy s)

/-- The number below `bound` that a variable holds. -/
def lookupNumber (env : Environment) (name : String) (bound unset : Nat) : Except LoadFault Nat := do
  match ← lookupText env name with
  | none => return unset
  | some s =>
    match Text.readNumeral bound s.toList with
    | .ok n => return n
    | .error f => throw (.badNumber name s f)

/-- The settings the environment holds, or the first fault in the order of the settings. -/
def load (env : Environment) (namePrefix : String) : Except LoadFault Config := do
  let strategy ← lookupKind env (namePrefix ++ "STRATEGY") ({} : Config).strategy
  let initialCapacity ←
    lookupNumber env (namePrefix ++ "INITIAL_CAPACITY") sizeBound ({} : Config).initialCapacity
  let maxCapacity ←
    lookupNumber env (namePrefix ++ "MAX_CAPACITY") sizeBound ({} : Config).maxCapacity
  let optimisticRetries ←
    lookupNumber env (namePrefix ++ "OPTIMISTIC_RETRIES") retryBound ({} : Config).optimisticRetries
  let config : Config := { strategy, initialCapacity, maxCapacity, optimisticRetries }
  match config.fault? with
  | some f => throw (.invalid f)
  | none => return config

/-- The settings the environment holds, with the records of reading them: only a success is
reported. -/
def ofEnvironment (env : Environment) (namePrefix : String) :
    Except Error Config × List Record :=
  match load env namePrefix with
  | .ok c => (.ok c, [.loaded namePrefix c])
  | .error f => (.error f.toError, [])

end Config

end Growable
