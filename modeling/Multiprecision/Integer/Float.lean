import Multiprecision.BinaryFloat.Digits
import Multiprecision.Integer.Arithmetic

/-! Integers and floating point values: conversion toward zero, subtraction of a value without its
    fraction, and the nearest value of a format. -/

namespace Multiprecision

/-- The sign and the magnitude of `as - x`, where `x` goes without its fraction. -/
def Digits.subtractFloat (f : BinaryFloat.Format) (as : Digits) (x : BinaryFloat) :
    Except Error (Sign × Magnitude) :=
  if x.isNegative then
    (x.neg.magnitude f).map fun b =>
      let sum := Digits.add as b.digits
      (sum.signed .positive, sum)
  else (x.magnitude f).map fun b => Digits.subtract as b.digits

namespace Integer

/-- The integer of a floating point value without its fraction. -/
def ofFloat (f : BinaryFloat.Format) (x : BinaryFloat) : Except Error Integer :=
  (x.abs.magnitude f).map (make (Sign.ofNegative x.isNegative))

/-- An integer minus a floating point value without its fraction. For a negative integer both are
    negated first, and the difference after. -/
def subFloat (f : BinaryFloat.Format) (n : Integer) (x : BinaryFloat) : Except Error Integer :=
  let (y, outer) := if n.isNegative then (x.neg, Sign.negative) else (x, Sign.positive)
  (Digits.subtractFloat f n.digits y).map fun d => ⟨d.1 * outer, d.2⟩

/-- The value of an integer in a format. -/
def toFloat (f : BinaryFloat.Format) (n : Integer) : BinaryFloat :=
  BinaryFloat.ofDigits f n.isNegative n.digits

end Integer

end Multiprecision
