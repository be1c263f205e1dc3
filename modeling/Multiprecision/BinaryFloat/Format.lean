import Multiprecision.BinaryFloat.Scaled

/-! Binary floating point formats. A format has so many bits of precision and so many exponent bits; its
    finite numbers are the scaled numbers whose mantissa fits in the precision, down to a least
    exponent. Results that do not fit are rounded to the nearest number that does, a tie to the even
    mantissa, and to infinity above the largest finite number. -/

namespace Multiprecision

/-- The number of bits of a natural number. -/
def bitLength (n : Nat) : Nat := if n = 0 then 0 else n.log2 + 1

/-- The nearest natural number to `n / 2 ^ k`, a tie to the even one. -/
def halfEven (n k : Nat) : Nat :=
  let q := n / twoTo k
  let r := n % twoTo k
  if 2 * r < twoTo k then q else if twoTo k < 2 * r then q + 1 else q + q % 2

/-- The nearest number to `n` with at most `p` significant bits, a tie to the even mantissa. -/
def roundToBits (p n : Nat) : Nat :=
  let k := bitLength n - p
  halfEven n k * twoTo k

/-- A value of a binary floating point format. -/
inductive BinaryFloat where
  /-- No number. -/
  | nan
  | infinite (negative : Bool)
  | finite (negative : Bool) (magnitude : Scaled)
  deriving DecidableEq, Repr

namespace BinaryFloat

/-- The value of the opposite sign. -/
def neg : BinaryFloat → BinaryFloat
  | .nan => .nan
  | .infinite s => .infinite (!s)
  | .finite s m => .finite (!s) m

/-- The value without its sign. -/
def abs : BinaryFloat → BinaryFloat
  | .nan => .nan
  | .infinite _ => .infinite false
  | .finite _ m => .finite false m

/-- Whether the value is below zero; a zero is not, whatever its sign. -/
def isNegative : BinaryFloat → Bool
  | .nan => false
  | .infinite s => s
  | .finite s m => s && m.mantissa != 0

/-- A binary floating point format. -/
structure Format where
  precision : Nat
  exponentBits : Nat
  deriving DecidableEq, Repr

namespace Format

/-- The format of 32 bits. -/
def single : Format := ⟨24, 8⟩

/-- The format of 64 bits. -/
def double : Format := ⟨53, 11⟩

/-- The number of bits of a value. -/
def width (f : Format) : Nat := f.precision + f.exponentBits

/-- The exponent of the largest power of two. -/
def greatestExponent (f : Format) : Nat := twoTo (f.exponentBits - 1) - 1

/-- The exponent of the least positive number. -/
def leastExponent (f : Format) : Int := 2 - f.greatestExponent - f.precision

/-- The exponent that a number needs for a mantissa that fits. -/
def exponentFor (f : Format) (x : Scaled) : Int :=
  max (x.exponent + bitLength x.mantissa - f.precision) f.leastExponent

/-- The nearest number with a mantissa that fits, a tie to the even mantissa; no number is too large. -/
def nearest (f : Format) (x : Scaled) : Scaled :=
  let e := f.exponentFor x
  if e ≤ x.exponent then x else ⟨halfEven x.mantissa (e - x.exponent).toNat, e⟩

/-- The nearest finite number to a natural number, unless that is infinite. -/
def roundNat (f : Format) (n : Nat) : Option Nat :=
  let m := roundToBits f.precision n
  if m < twoTo (f.greatestExponent + 1) then some m else none

/-- The value of a bit pattern: sign, exponent and fraction, from the top. -/
def decode (f : Format) (bits : Nat) : BinaryFloat :=
  let hidden := twoTo (f.precision - 1)
  let fraction := bits % hidden
  let exponent := bits / hidden % twoTo f.exponentBits
  let negative := bits / twoTo (f.width - 1) % 2 == 1
  if exponent = twoTo f.exponentBits - 1 then
    if fraction = 0 then .infinite negative else .nan
  else if exponent = 0 then .finite negative ⟨fraction, f.leastExponent⟩
  else .finite negative ⟨hidden + fraction, exponent - 1 + f.leastExponent⟩

/-- Exponent and fraction of a finite number with a mantissa that fits, as one number. -/
def encodeMagnitude (f : Format) (x : Scaled) : Nat :=
  let hidden := twoTo (f.precision - 1)
  let e := f.exponentFor x
  let m :=
    if e ≤ x.exponent then x.mantissa * twoTo (x.exponent - e).toNat
    else x.mantissa / twoTo (e - x.exponent).toNat
  if m < hidden then m else (e - f.leastExponent + 1).toNat * hidden + (m - hidden)

/-- The bit pattern of a value; all patterns that are no number are read alike, and one is written. -/
def encode (f : Format) : BinaryFloat → Nat
  | .nan => (twoTo f.exponentBits - 1) * twoTo (f.precision - 1) + twoTo (f.precision - 2)
  | .infinite s => s.toNat * twoTo (f.width - 1) + (twoTo f.exponentBits - 1) * twoTo (f.precision - 1)
  | .finite s x => s.toNat * twoTo (f.width - 1) + f.encodeMagnitude x

end Format

end BinaryFloat

end Multiprecision
