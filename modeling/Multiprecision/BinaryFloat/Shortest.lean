import Multiprecision.BinaryFloat.Format

/-! The shortest decimal that reads back as a floating point number. The numbers that round to it lie in
    an interval between the midpoints to its neighbours. Of the decimal grids, the multiples of one
    power of ten, the coarsest with a point in the interval gives the fewest digits, and the nearer of
    its points beside the number is taken. -/

namespace Multiprecision.BinaryFloat

/-- The interval of the numbers that round to `quarters / 4`, in quarters of the last place of its
    mantissa. -/
structure Interval where
  low : Nat
  quarters : Nat
  high : Nat
  /-- Whether the ends round to the number too. -/
  closed : Bool

/-- The interval of a positive number whose mantissa is as long as it can be. The gap below a power of
    two is half the gap above it. -/
def intervalOf (f : Format) (x : Scaled) : Interval :=
  let m := x.mantissa
  let narrow := m = twoTo (f.precision - 1) ∧ f.leastExponent < x.exponent
  ⟨if narrow then 4 * m - 1 else 4 * m - 2, 4 * m, 4 * m + 2, m % 2 == 0⟩

/-- Whether a fraction lies in an interval. -/
def Interval.contains (i : Interval) (num den : Nat) : Bool :=
  if i.closed then i.low * den ≤ num && num ≤ i.high * den
  else i.low * den < num && num < i.high * den

/-- The nearer point `d` of the grid of `10 ^ t` in the interval, where a quarter is `2 ^ e`. -/
def gridPoint? (i : Interval) (e t : Int) : Option Nat :=
  let num := twoTo e.toNat * Nat.pow 10 (-t).toNat
  let den := twoTo (-e).toNat * Nat.pow 10 t.toNat
  let below := i.quarters * num / den
  let near := 2 * (i.quarters * num % den) ≤ den
  let fits (d : Nat) : Bool := i.contains (d * den) num
  match fits below, fits (below + 1) with
  | true, true => some (if near then below else below + 1)
  | true, false => some below
  | false, true => some (below + 1)
  | false, false => none

/-- The first grid from `10 ^ t` down that has a point in the interval: the point and its exponent. -/
def coarsest (i : Interval) (e : Int) : Nat → Int → Nat × Int
  | 0, t => (0, t)
  | rounds + 1, t =>
    match gridPoint? i e t with
    | some d => (d, t)
    | none => coarsest i e rounds (t - 1)

/-- The shortest decimal `d * 10 ^ t` of a positive number whose mantissa is as long as it can be: no
    grid above the number has a point, and no number of a format needs a finer grid than its least
    exponent gives. -/
def shortest (f : Format) (x : Scaled) : Nat × Int :=
  let most := (toString x.floor).length
  coarsest (intervalOf f x) (x.exponent - 2) (most + (-f.leastExponent).toNat + f.precision) most

/-- A decimal in positional form, with at least one digit on either side of the point. -/
def positional (d : Nat) (t : Int) : String :=
  let digits := (toString d).toList
  if 0 ≤ t then String.ofList (digits ++ List.replicate t.toNat '0') ++ ".0"
  else
    let places := (-t).toNat
    let padded := List.replicate (places + 1 - digits.length) '0' ++ digits
    let whole := padded.length - places
    String.ofList (padded.take whole ++ ['.'] ++ padded.drop whole)

/-- The text of a number that is not negative, in positional form. -/
def text (f : Format) (x : Scaled) : String :=
  if x.mantissa = 0 then "0.0"
  else
    let (d, t) := shortest f x
    positional d t

end Multiprecision.BinaryFloat
