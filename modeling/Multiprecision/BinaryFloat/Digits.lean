import Multiprecision.BinaryFloat.Format
import Multiprecision.Error
import Multiprecision.Magnitude

/-! Floating point values and digits. A value gives its digits from the lowest up: each is the remainder
    by the base of the digits, and the quotient without its fraction is what is left. Digits give a value
    from the highest down, by multiplying and adding. Every operation is rounded as the format demands. -/

namespace Multiprecision.BinaryFloat

/-- The nearest digit at or below a number, at most the largest. -/
def toDigit (x : Scaled) : Digit := Digit.low (min x.floor (Digit.base - 1))

/-- The lowest digit of a number without a fraction: the remainder by the base. -/
def lowestDigit (f : Format) (x : Scaled) : Digit := toDigit (f.nearest (x.mod Digit.bits))

/-- What is left of a number above its lowest digit: the quotient by the base without its fraction. -/
def aboveLowest (f : Format) (x : Scaled) : Scaled := (f.nearest (x.scale (-Digit.bits))).trunc

/-- The digits of a number without a fraction, in at most so many rounds. -/
def digitsFrom (f : Format) : Nat → Scaled → Digits
  | 0, _ => []
  | rounds + 1, x =>
    let rest := aboveLowest f x
    lowestDigit f x :: if rest.floor = 0 then [] else digitsFrom f rounds rest

/-- The magnitude of a value without its fraction. A value that is not finite is refused before one
    below zero. The rounds never run out, for no number has more digits than bits. -/
def magnitude (f : Format) (x : BinaryFloat) : Except Error Magnitude :=
  match x with
  | .nan => .error .notFinite
  | .infinite _ => .error .notFinite
  | .finite _ m =>
    if x.isNegative then .error .negativeValue
    else .ok (Magnitude.ofDigits (digitsFrom f (bitLength m.floor + 1) m.trunc))

/-- The number of the digits in a format, or none above the largest finite number. -/
def numberOfDigits (f : Format) : Digits → Option Nat
  | [] => some 0
  | d :: ds => do
    let above ← numberOfDigits f ds
    let high ← f.roundNat (above * Digit.base)
    let low ← f.roundNat d.toNat
    f.roundNat (high + low)

/-- The value of the digits in a format, with a sign. -/
def ofDigits (f : Format) (negative : Bool) (ds : Digits) : BinaryFloat :=
  match numberOfDigits f ds with
  | some n => .finite negative (Scaled.ofNat n)
  | none => .infinite negative

end Multiprecision.BinaryFloat
