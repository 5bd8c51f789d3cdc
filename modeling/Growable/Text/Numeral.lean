/-!
# Decimal numerals

Reading an unsigned number below a bound from its decimal digits, with one optional leading plus
sign. The text is read from the left and the first fault found is the one reported.
-/

namespace Growable.Text

/-- Why a text is not a numeral. -/
inductive NumeralFault where
  /-- There is nothing to read. -/
  | empty
  /-- A character is not a decimal digit, or a sign stands alone. -/
  | badDigit
  /-- The digits read so far already reach the bound. -/
  | tooLarge
  deriving DecidableEq, Repr

/-- The wording of a fault. -/
def NumeralFault.message : NumeralFault → String
  | .empty => "cannot parse integer from empty string"
  | .badDigit => "invalid digit found in string"
  | .tooLarge => "number too large to fit in target type"

/-- The value of a decimal digit. -/
def digit? (c : Char) : Option Nat :=
  if '0' ≤ c ∧ c ≤ '9' then some (c.toNat - '0'.toNat) else none

/-- Reads the digits `cs` after a numeral whose value so far is `value`. -/
def readDigits (bound : Nat) : (value : Nat) → (cs : List Char) → Except NumeralFault Nat
  | value, [] => .ok value
  | value, c :: cs =>
    match digit? c with
    | none => .error .badDigit
    | some d =>
      if 10 * value + d < bound then readDigits bound (10 * value + d) cs else .error .tooLarge

/-- Reads a numeral below `bound`: an optional plus sign, then one digit or more. -/
def readNumeral (bound : Nat) : (cs : List Char) → Except NumeralFault Nat
  | [] => .error .empty
  | ['+'] => .error .badDigit
  | '+' :: cs => readDigits bound 0 cs
  | cs => readDigits bound 0 cs

end Growable.Text
