import Multiprecision.Digits

/-! Shifts of a list of digits by fewer bits than a digit has. A shift up may need one more digit; a
    shift down drops the bits that leave the lowest digit. -/

namespace Multiprecision.Digits

/-- The digits shifted up by `n` bits, above the bits `carry` that come in from below. -/
def shiftUpFrom (n : Nat) : Digits → Digit → Digits
  | [], carry => if carry = 0 then [] else [carry]
  | d :: ds, carry =>
    ((d <<< n.toUInt64) ||| carry) :: shiftUpFrom n ds (d >>> (Digit.bits - n).toUInt64)

/-- The digits shifted up by `n` bits. -/
def shiftUp (n : Nat) (ds : Digits) : Digits := if n = 0 then ds else shiftUpFrom n ds 0

/-- The digits shifted down by `n` bits, and the bits that leave the lowest digit, at the top of a digit. -/
def shiftDownTo (n : Nat) : Digits → Digits × Digit
  | [] => ([], 0)
  | d :: ds =>
    let (rest, carry) := shiftDownTo n ds
    (((d >>> n.toUInt64) ||| carry) :: rest, d <<< (Digit.bits - n).toUInt64)

/-- The digits shifted down by `n` bits. -/
def shiftDown (n : Nat) (ds : Digits) : Digits := if n = 0 then ds else (shiftDownTo n ds).1

end Multiprecision.Digits
