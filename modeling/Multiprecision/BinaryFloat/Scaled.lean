import Multiprecision.Power

/-! Natural numbers scaled by a power of two, exactly. These are the magnitudes of binary floating point
    numbers, and what their operations give before rounding. -/

namespace Multiprecision

/-- The number `mantissa * 2 ^ exponent`. -/
structure Scaled where
  mantissa : Nat
  exponent : Int
  deriving DecidableEq, Repr

namespace Scaled

/-- A natural number, not scaled. -/
def ofNat (n : Nat) : Scaled := ⟨n, 0⟩

/-- The number times `2 ^ k`. -/
def scale (x : Scaled) (k : Int) : Scaled := ⟨x.mantissa, x.exponent + k⟩

/-- The largest natural number that is not above the number. -/
def floor (x : Scaled) : Nat :=
  if 0 ≤ x.exponent then x.mantissa * twoTo x.exponent.toNat else x.mantissa / twoTo (-x.exponent).toNat

/-- The number without its places below one. -/
def trunc (x : Scaled) : Scaled := if 0 ≤ x.exponent then x else ofNat x.floor

/-- The remainder of the number by `2 ^ k`. -/
def mod (x : Scaled) (k : Nat) : Scaled :=
  if 0 ≤ x.exponent then ofNat (x.floor % twoTo k)
  else ⟨x.mantissa % twoTo (k + (-x.exponent).toNat), x.exponent⟩

end Scaled

end Multiprecision
