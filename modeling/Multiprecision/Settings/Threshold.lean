/-! The threshold that the environment asks for: a positive decimal numeral of one machine word, after an
    optional `+`. The numeral is read from the left, and the first thing that is wrong is what counts. -/

namespace Multiprecision.Settings

/-- What is wrong with a numeral of a positive word. -/
inductive NumeralFault where | empty | invalidDigit | overflow | zero
  deriving DecidableEq, Repr

/-- The name of a fault. -/
def NumeralFault.name : NumeralFault → String
  | .empty => "Empty"
  | .invalidDigit => "InvalidDigit"
  | .overflow => "PosOverflow"
  | .zero => "Zero"

/-- The largest value of a machine word. -/
def wordMax : Nat := 18446744073709551615

/-- The value of the digits that are left, after the value `n`. A digit is looked at before the value
    that it leads to. -/
def readDigits : List Char → Nat → Except NumeralFault Nat
  | [], n => .ok n
  | c :: cs, n =>
    if c.isDigit then
      let next := n * 10 + (c.toNat - '0'.toNat)
      if wordMax < next then .error .overflow else readDigits cs next
    else .error .invalidDigit

/-- A positive word from its numeral. -/
def readPositive (text : String) : Except NumeralFault Nat :=
  let digits : List Char → Except NumeralFault Nat
    | [] => .error .empty
    | ['+'] => .error .invalidDigit
    | '+' :: cs => readDigits cs 0
    | cs => readDigits cs 0
  (digits text.toList).bind fun n => if n = 0 then .error .zero else .ok n

end Multiprecision.Settings
