import Multiprecision.Magnitude

/-! Words of two digits. A word is an operand of its own beside longer numbers: it is taken apart
    into one digit, or two when the high one is not zero. -/

namespace Multiprecision

/-- A word of two digits, 128 bits. -/
abbrev Wide := BitVec 128

namespace Wide

/-- The one or two digits of a word, without a zero at the top unless the word is zero. -/
def digits (w : Wide) : Digits :=
  let lo := Digit.low w.toNat
  let hi := Digit.high w.toNat
  if hi = 0 then [lo] else [lo, hi]

/-- The two low digits of a number as a word. -/
def ofDigits : Digits → Wide
  | [] => 0
  | [lo] => BitVec.ofNat 128 lo.toNat
  | lo :: hi :: _ => BitVec.ofNat 128 (Digit.join hi lo)

/-- The magnitude of a word. -/
def magnitude (w : Wide) : Magnitude :=
  if w.toNat < Digit.base then Magnitude.ofDigits [Digit.low w.toNat]
  else Magnitude.ofDigits [Digit.low w.toNat, Digit.high w.toNat]

end Wide

end Multiprecision
