import Multiprecision.Digits.RecursiveDivision

/-! Division with a choice of algorithm: division by halving pays for long divisors only. The choice
    never shows in the result. -/

namespace Multiprecision

/-- The rule that chooses how to divide: division by halving from so many divisor digits on. -/
structure DivisionRule where
  threshold : Nat
  threshold_pos : 0 < threshold

namespace DivisionRule

/-- The number of divisor digits from which division by halving pays. -/
def usualThreshold : Nat := 96

/-- The rule with the usual threshold. -/
def usual : DivisionRule := ⟨usualThreshold, by decide⟩

/-- The rule with a threshold, which is not zero. -/
def ofThreshold? (n : Nat) : Option DivisionRule := if h : 0 < n then some ⟨n, h⟩ else none

/-- The rule with a threshold, which is taken to be at least one. -/
def atLeastOne (n : Nat) : DivisionRule := ⟨max n 1, by omega⟩

end DivisionRule

namespace Digits

/-- Quotient and remainder of two lists of digits, by the algorithm that the rule chooses. -/
def divide (as bs : Digits) (rule : DivisionRule) : Except Error (Magnitude × Magnitude) :=
  let as := trim as
  let bs := trim bs
  if bs.isEmpty then .error .divisionByZero
  else if rule.threshold ≤ bs.length ∧ bs.length < as.length then halvingDivide as bs
  else longDivide as bs

/-- Quotient and remainder toward zero of two signed magnitudes. The quotient has the product of the
    signs and the remainder the sign of the dividend, unless they are zero. -/
def divideSigned (s : Sign) (as : Digits) (t : Sign) (bs : Digits) (rule : DivisionRule) :
    Except Error ((Sign × Magnitude) × (Sign × Magnitude)) :=
  (divide as bs rule).map fun (q, r) => ((q.signed (s * t), q), (r.signed s, r))

end Digits

end Multiprecision
