import Multiprecision.Text.QuotedByte

/-! What can go wrong, as causes, and the message of each cause. -/

namespace Multiprecision

/-- The smallest base of a numeral. -/
def leastBase : Nat := 2

/-- The largest base of a numeral. -/
def greatestBase : Nat := 64

/-- The reason why an operation has no result. -/
inductive Error where
  /-- Numerals have no such base. -/
  | unsupportedBase (base : Nat)
  /-- A numeral without a token. -/
  | emptyNumeral
  /-- A token without a value below the base. -/
  | invalidToken (token : UInt8) (base : Nat)
  /-- A floating point value that is no number or infinite. -/
  | notFinite
  /-- A floating point value below zero where a magnitude is asked for. -/
  | negativeValue
  /-- A division by zero. -/
  | divisionByZero
  deriving DecidableEq, Repr

/-- The text of an error. -/
def Error.message : Error → String
  | .unsupportedBase base =>
    "base " ++ toString base ++ " is not supported (must be within " ++ toString leastBase
      ++ "..=" ++ toString greatestBase ++ ")"
  | .emptyNumeral => "cannot parse empty token string"
  | .invalidToken token base =>
    "invalid token " ++ Text.quotedByte token ++ " for base " ++ toString base
  | .notFinite => "cannot convert non-finite floating point value to digits"
  | .negativeValue => "cannot convert negative floating point value to digits"
  | .divisionByZero => "Division by zero"

/-- Whether an error is the fault of one argument, and not of a division. -/
def Error.isInvalidArgument : Error → Bool
  | .divisionByZero => false
  | _ => true

end Multiprecision
