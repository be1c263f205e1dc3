import Multiprecision.Error
import Multiprecision.Digits.DigitQuotient
import Multiprecision.Digits.Shift
import Multiprecision.Wide

/-! Long division. Both numbers are shifted up until the top bit of the divisor is set. The quotient
    digits then come from the highest place down. At each place the remainder of the places above,
    with the digit of the place below it, is a window of one digit more than the divisor. The quotient
    digit is estimated from the top of the window, the divisor times the estimate is taken from the
    window, and when a borrow is left the estimate was one too large and the divisor is added back. -/

namespace Multiprecision.Digits

/-- The three top digits of a list, the highest first. -/
def topThree (ds : Digits) : Digit × Digit × Digit :=
  match ds.reverse with
  | a :: b :: c :: _ => (a, b, c)
  | [a, b] => (a, b, 0)
  | [a] => (a, 0, 0)
  | [] => (0, 0, 0)

/-- Lowers an estimate `q` of a quotient digit, with its remainder `r` against the top digit of the
    divisor, while it is too large for a digit or for the two top digits. It stops when the remainder
    is too large for a digit, since no lower estimate can be rejected from there on. -/
def refineEstimate (top next below : Digit) : Nat → Nat → Nat
  | 0, _ => 0
  | q + 1, r =>
    if Digit.base ≤ q + 1 ∨ Digit.join (Digit.low r) below < (q + 1) * next.toNat then
      if Digit.base ≤ r + top.toNat then q else refineEstimate top next below q (r + top.toNat)
    else q + 1

/-- The estimate of the quotient digit of a window, from its three top digits and the two top digits
    of the divisor. -/
def estimate (top next : Digit) (window : Digits) : Nat :=
  let (a, b, c) := topThree window
  let n := Digit.join a b
  refineEstimate top next c (n / top.toNat) (n % top.toNat)

/-- The window minus `q` times the divisor, and the borrow left at the top. The window is one digit
    longer than the divisor. -/
def subtractMultiple (q : Digit) : Digits → Digits → Digit → Bool → Digits × Bool
  | _, [], _, borrow => ([], borrow)
  | [], w :: ws, carry, borrow =>
    let (x, b) := Digit.subBorrow w carry borrow
    (x :: ws, b)
  | v :: vs, w :: ws, carry, borrow =>
    let (hi, lo) := Digit.mulAdd q v carry 0
    let (x, b) := Digit.subBorrow w lo borrow
    let (rest, t) := subtractMultiple q vs ws hi b
    (x :: rest, t)

/-- The window plus the divisor; the carry out of the top cancels the borrow that is left there. -/
def addBack : Digits → Digits → Bool → Digits
  | _, [], _ => []
  | [], w :: ws, carry => (w + Digit.ofBool carry) :: ws
  | v :: vs, w :: ws, carry =>
    let (x, c) := Digit.addCarry w v carry
    x :: addBack vs ws c

/-- The quotient digit of a window, and the window that is left. -/
def divideWindow (divisor : Digits) (top next : Digit) (window : Digits) : Digit × Digits :=
  let q := Digit.low (estimate top next window)
  match subtractMultiple q divisor window 0 false with
  | (rest, false) => (q, rest)
  | (rest, true) => (q - 1, addBack divisor rest false)

/-- The quotient digits of the places in `low`, below the remainder `rem` of the places above, and
    the remainder that is left. -/
def divideWindows (divisor : Digits) (top next : Digit) (rem : Digits) : Digits → Digits × Digits
  | [] => ([], rem)
  | u :: low =>
    let (qs, r) := divideWindows divisor top next rem low
    let (q, w) := divideWindow divisor top next (u :: r)
    (q :: qs, w.take divisor.length)

/-- Quotient and remainder of `as` by `bs`, where `bs` has at least two digits, none of them a zero at
    the top, and `as` has at least as many. -/
def divideNormal (as bs : Digits) : Digits × Digits :=
  let (b, _, _) := topThree bs
  let shift := Digit.leadingZeros b
  let divisor := shiftUp shift bs
  let (top, next, _) := topThree divisor
  let dividend := resize (shiftUp shift as) (as.length + 1)
  let places := as.length - bs.length + 1
  let (qs, r) := divideWindows divisor top next (dividend.drop places) (dividend.take places)
  (qs, shiftDown shift r)

/-- Quotient and remainder of two lists of digits, where the divisor is not zero. -/
def longDivideNonzero (as bs : Digits) : Magnitude × Magnitude :=
  let as := trim as
  match trim bs with
  | [] => (Magnitude.zero, Magnitude.ofDigits as)
  | b :: bs =>
    if compare as (b :: bs) = .lt then (Magnitude.zero, Magnitude.ofDigits as)
    else if bs.isEmpty then
      let (qs, r) := divideByDigit b as
      (Magnitude.ofDigits qs, Magnitude.ofDigits [r])
    else
      let (qs, r) := divideNormal as (b :: bs)
      (Magnitude.ofDigits qs, Magnitude.ofDigits r)

/-- Quotient and remainder of two lists of digits. -/
def longDivide (as bs : Digits) : Except Error (Magnitude × Magnitude) :=
  if isZero bs then .error .divisionByZero else .ok (longDivideNonzero as bs)

/-- Quotient and remainder of a list of digits and a word. -/
def longDivideWide (as : Digits) (w : Wide) : Except Error (Magnitude × Magnitude) :=
  if w = 0 then .error .divisionByZero else .ok (longDivideNonzero as w.digits)

end Multiprecision.Digits
