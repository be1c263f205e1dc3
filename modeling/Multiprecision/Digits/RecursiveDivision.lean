import Multiprecision.Chunks
import Multiprecision.Digits.Difference
import Multiprecision.Digits.LongDivision
import Multiprecision.Digits.Product
import Multiprecision.Digits.Sum

/-! Division by halving. A number of `2n` digits is divided by one of `n` digits in two steps, each of
    which divides `3n/2` digits by `n`: the step divides by the upper half of the divisor, subtracts
    the product of the quotient and the lower half, and, while the remainder is negative, takes one
    from the quotient and adds the divisor back. Quotients of a few digits go to long division. A
    longer dividend is cut into blocks of `n` digits, which are divided from the top. -/

namespace Multiprecision.Digits

/-- The largest number of quotient digits that division by halving leaves to long division. -/
def shortQuotient : Nat := 16

/-- The magnitude `hi * base ^ n + lo`, where `lo` has at most `n` digits. -/
def joinBlocks (hi : Magnitude) (lo : Digits) (n : Nat) : Magnitude :=
  Magnitude.ofDigits (resize (trim lo) n ++ hi.digits)

/-- The magnitude `m * base ^ n`. -/
def raise (m : Magnitude) (n : Nat) : Magnitude :=
  Magnitude.ofDigits (List.replicate n 0 ++ m.digits)

/-- The magnitude of the digits in the places `lo` to `hi - 1`. -/
def block (m : Magnitude) (lo hi : Nat) : Magnitude := Magnitude.ofDigits (range m.digits lo hi)

/-- Takes one from the quotient and adds the divisor `b` to the remainder while this is negative. For a
    divisor that is zero this would not end, and the test for one is there only so that the recursion
    does: no division has such a divisor, and for any other the sign of the remainder alone decides. -/
def correct (b q : Magnitude) (s : Sign) (r : Magnitude) : Magnitude × Magnitude :=
  if _negative : s = .negative ∧ b.isZero = false then
    let d := subtract b.digits r.digits
    correct b (subtract q.digits [1]).2 d.1 d.2
  else (q, r)
termination_by if s = .negative then r.toNat + 1 else 0
decreasing_by
  have pos : 0 < value b.digits := by
    refine Nat.pos_of_ne_zero fun z => ?_
    rw [(Magnitude.isZero_iff b).2 z] at _negative
    exact absurd _negative.2 (by decide)
  rw [if_pos _negative.1]
  split
  · next e => exact Nat.add_lt_add_right (subtract_lt pos e) 1
  · omega

mutual

/-- Quotient and remainder of `a` by the `n`-digit `b`, where `a < b * base ^ n`. An odd `n` is made
    even by one more digit at the bottom of both. For such an `a` the quotient of a divisor of one or
    two digits is always short. -/
def divideTwoByOne (a b : Magnitude) (n : Nat) : Magnitude × Magnitude :=
  if _short : a.length - n ≤ shortQuotient ∨ n ≤ 2 then longDivideNonzero a.digits b.digits
  else if n % 2 = 1 then
    let (q, r) := divideTwoByOne (raise a 1) (raise b 1) (n + 1)
    (q, block r 1 r.length)
  else
    let half := n / 2
    let b₁ := block b half b.length
    let b₂ := block b 0 half
    let (q₁, r₁) := divideThreeByTwo (block a n a.length) (block a half n) b b₁ b₂ half
    let (q₂, r₂) := divideThreeByTwo r₁ (block a 0 half) b b₁ b₂ half
    (joinBlocks q₁ q₂.digits half, r₂)
termination_by 4 * (n + n % 2) + n % 2
decreasing_by all_goals omega

/-- Quotient and remainder of `a₁₂ * base ^ n + a₃` by `b = b₁ * base ^ n + b₂`, where `a₁₂ < b`. When
    the top of `a₁₂` equals `b₁` the quotient by `b₁` would not fit in `n` digits, and `n` largest
    digits are taken instead. -/
def divideThreeByTwo (a₁₂ a₃ b b₁ b₂ : Magnitude) (n : Nat) : Magnitude × Magnitude :=
  let (q, r) :=
    if block a₁₂ n a₁₂.length = b₁ then
      (Magnitude.ofDigits (List.replicate n Digit.max),
        add (subtract a₁₂.digits (raise b₁ n).digits).2.digits b₁.digits)
    else divideTwoByOne a₁₂ b₁ n
  let (s, r) := subtract (joinBlocks r a₃.digits n).digits (multiply q.digits b₂.digits).digits
  correct b q s r
termination_by 4 * (n + n % 2) + 2
decreasing_by omega

end

/-- Quotient digits, `n` for each block, and remainder of the blocks by the `n`-digit `b`. -/
def divideBlocks (b : Magnitude) (n : Nat) : List Digits → Digits × Magnitude
  | [] => ([], Magnitude.zero)
  | c :: cs =>
    let (qs, r) := divideBlocks b n cs
    let (q, r) := divideTwoByOne (joinBlocks r c n) b n
    (resize q.digits n ++ qs, r)

/-- Quotient and remainder of two lists of digits by halving, where the divisor is not zero. -/
def halvingDivideNonzero (as bs : Digits) : Magnitude × Magnitude :=
  let as := trim as
  let bs := trim bs
  if compare as bs = .lt then (Magnitude.zero, Magnitude.ofDigits as)
  else
    let (b, _, _) := topThree bs
    let shift := Digit.leadingZeros b
    let divisor := Magnitude.ofDigits (shiftUp shift bs)
    let n := divisor.length
    let (qs, r) := divideBlocks divisor n (chunks n (shiftUp shift as))
    (Magnitude.ofDigits qs, Magnitude.ofDigits (shiftDown shift r.digits))

/-- Quotient and remainder of two lists of digits by halving. -/
def halvingDivide (as bs : Digits) : Except Error (Magnitude × Magnitude) :=
  if isZero bs then .error .divisionByZero else .ok (halvingDivideNonzero as bs)

end Multiprecision.Digits
