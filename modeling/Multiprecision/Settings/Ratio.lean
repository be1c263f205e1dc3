import Multiprecision.BinaryFloat.Shortest
import Multiprecision.Error

/-! How many digits a token takes up, and how many tokens a digit: the binary logarithm of the base over
    the bits of a digit, and its reciprocal, each rounded to the double format. -/

namespace Multiprecision.Settings

open BinaryFloat

/-- The number of binary places to which logarithms and reciprocals are taken before rounding. -/
def places : Nat := 100

/-- The number of binary places that squaring keeps, enough that no error reaches the result. -/
def guard : Nat := 2 * places + 56

/-- So many binary places of the logarithm of `x / 2 ^ guard`, which lies between 1 and 2, after the
    places `acc`. Squaring doubles a logarithm, and so moves its next place before the point. -/
def logarithmPlaces : Nat → Nat → Nat → Nat
  | 0, _, acc => acc
  | n + 1, x, acc =>
    let s := x * x / twoTo guard
    if s < twoTo (guard + 1) then logarithmPlaces n s (2 * acc)
    else logarithmPlaces n (s / 2) (2 * acc + 1)

/-- A number cut off after its places, with a last place that says that something was cut off. -/
def cutOff (n : Nat) (exact : Bool) : Nat := 2 * n + (if exact then 0 else 1)

/-- The binary logarithm of a number, rounded. -/
def logarithm (n : Nat) : Scaled :=
  let k := n.log2
  let x := n * twoTo (guard - k)
  Format.double.nearest ⟨cutOff (logarithmPlaces places x k) (n == twoTo k), -(places + 1)⟩

/-- The reciprocal of a number, rounded. -/
def reciprocal (x : Scaled) : Scaled :=
  let n := twoTo (bitLength x.mantissa + places)
  Format.double.nearest
    ⟨cutOff (n / x.mantissa) (n % x.mantissa == 0),
      -x.exponent - (bitLength x.mantissa + places + 1)⟩

/-- The number with the mantissa as long as it can be. -/
def lengthened (x : Scaled) : Scaled :=
  let e := Format.double.exponentFor x
  if e < x.exponent then ⟨x.mantissa * twoTo (x.exponent - e).toNat, e⟩ else x

/-- The digits that a token of a base takes up, as a fraction; nothing below the least base. -/
def digitsPerToken (base : Nat) : Scaled :=
  if base < leastBase then Scaled.ofNat 0 else (logarithm base).scale (-6)

/-- The tokens of a base that a digit takes; nothing below the least base. -/
def tokensPerDigit (base : Nat) : Scaled :=
  if base < leastBase then Scaled.ofNat 0 else reciprocal (digitsPerToken base)

/-- The text of a ratio. -/
def ratioText (x : Scaled) : String := text .double (lengthened x)

end Multiprecision.Settings
