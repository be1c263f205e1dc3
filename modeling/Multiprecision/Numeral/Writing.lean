import Multiprecision.Base
import Multiprecision.Digits.DigitQuotient
import Multiprecision.Token

/-! Writing a numeral: digits become the values of its tokens, the highest place first. The digits are
    divided by the power of the base that a chunk of tokens spans until one digit is left. Each
    remainder gives all the tokens of a chunk, zeros included; the last digit gives only those it has. -/

namespace Multiprecision.Numeral

/-- The `k` lowest places of a number, the lowest first. -/
def lowPlaces (base : Nat) : Nat → Nat → List Nat
  | 0, _ => []
  | k + 1, n => n % base :: lowPlaces base k (n / base)

/-- All the places of a number, the lowest first; none for zero. -/
def allPlaces (b : Base) (n : Nat) : List Nat :=
  if n = 0 then [] else n % b.toNat :: allPlaces b (n / b.toNat)
termination_by n
decreasing_by exact Nat.div_lt_self (by omega) b.two_le

/-- The values of the tokens of a magnitude, the lowest place first. -/
def places (b : Base) (m : Magnitude) : List Nat :=
  if _long : 1 < m.length then
    let d := Digits.divideByDigit b.chunkPower m.digits
    lowPlaces b.toNat b.chunkLength d.2.toNat ++ places b (Magnitude.ofDigits d.1)
  else allPlaces b (m.digits.headD 0).toNat
termination_by m.toNat
decreasing_by
  rw [Magnitude.toNat_ofDigits]
  exact Digits.value_divideByDigit_lt b.two_le_chunkPower (Magnitude.toNat_pos_of_one_lt_length _long)

/-- The values of the tokens in a supported base, the highest place first. -/
def valuesIn (b : Base) (ds : Digits) : List Nat :=
  if Digits.isZero ds then [0] else (places b (Magnitude.ofDigits ds)).reverse

/-- The values of the tokens of the digits, the highest place first. -/
def values (base : Nat) (ds : Digits) : Except Error (List Nat) :=
  (Base.ofNat base).map fun b => valuesIn b ds

/-- The tokens of the digits, the highest place first. -/
def write (base : Nat) (ds : Digits) : Except Error (List UInt8) :=
  (values base ds).map fun vs => vs.map (valueToken base)

end Multiprecision.Numeral
