import Multiprecision.Wide

/-! The product of two lists of digits, row by row: each digit of one factor times the other factor is
    added to the places it belongs to, and what a row carries ripples into the places above it. A row
    of a zero digit adds nothing and is left out. -/

namespace Multiprecision.Digits

/-- The digits plus a digit, and what is carried out of the top. -/
def addDigit : Digits → Digit → Digits × Digit
  | [], carry => ([], carry)
  | d :: ds, carry =>
    if carry = 0 then (d :: ds, 0)
    else
      let (s, c) := Digit.addCarry d carry false
      let (rest, t) := addDigit ds (Digit.ofBool c)
      (s :: rest, t)

/-- The digits of `acc + a * bs + carry`, and what is carried out of the top. -/
def addRow (a : Digit) : Digits → Digits → Digit → Digits × Digit
  | [], acc, carry => addDigit acc carry
  | _ :: _, [], carry => ([], carry)
  | b :: bs, r :: acc, carry =>
    let (hi, lo) := Digit.mulAdd a b r carry
    let (rest, t) := addRow a bs acc hi
    (lo :: rest, t)

/-- The digits of `acc + as * bs`: a row for each digit of `as`, each one place above the row before. -/
def addRows : Digits → Digits → Digits → Digits
  | [], _, acc => acc
  | a :: as, bs, acc =>
    match if a = 0 then acc else (addRow a bs acc 0).1 with
    | [] => []
    | r :: rest => r :: addRows as bs rest

/-- The magnitude of `as * bs`. -/
def multiply (as bs : Digits) : Magnitude :=
  let as := trim as
  let bs := trim bs
  if as.isEmpty || bs.isEmpty then Magnitude.zero
  else Magnitude.ofDigits (addRows as bs (List.replicate (as.length + bs.length) 0))

/-- The magnitude of `as * w`, for a word `w`. -/
def multiplyWide (as : Digits) (w : Wide) : Magnitude := multiply as w.digits

end Multiprecision.Digits
