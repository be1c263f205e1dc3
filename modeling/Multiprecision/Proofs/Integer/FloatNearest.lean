import Multiprecision.Proofs.BinaryFloat.Horner
import Multiprecision.Proofs.Integer.Float

/-! The value of an integer in a format. It has the sign of the integer, and is infinite exactly where the
    nearest value is. A finite value is a neighbour of the integer in the format, though not always the
    nearer one: the digits are rounded one after the other, and a digit that is rounded up can carry into
    a tie that was none. -/

namespace Multiprecision

/-- The nearest value of a format to an integer, a tie to the even mantissa. It is infinite where it would
    be above the largest finite number. -/
def BinaryFloat.nearestTo (f : Format) (z : Int) : BinaryFloat :=
  match f.roundNat z.natAbs with
  | some m => .finite (decide (z < 0)) (Scaled.ofNat m)
  | none => .infinite (decide (z < 0))

namespace Integer

open BinaryFloat (Format horner Misled nearestTo)

variable {f : Format} {n : Integer}

theorem toFloat_eq (hn : n.Coherent) :
    n.toFloat f = BinaryFloat.ofDigits f (decide (n.toInt < 0)) n.digits := by
  have sign : n.isNegative = decide (n.toInt < 0) := Bool.eq_iff_iff.2 (by simp [isNegative_iff hn])
  rw [toFloat, sign]

/-- An integer has the nearest value of either format, unless a rounding at its top digits is misled; a
    finite value is a neighbour in any case. This is so because rounding digit by digit is rounding once,
    unless it is misled. -/
theorem toFloat_eq_nearestTo_iff (hf : f ∈ [Format.single, Format.double]) (hn : n.Coherent) :
    (n.toFloat f = nearestTo f n.toInt ↔
      f.roundNat n.toInt.natAbs = none ∨ ¬Misled f.precision n.digits) ∧
    (f.roundNat n.toInt.natAbs ≠ none →
      ∃ r, n.toFloat f = .finite (decide (n.toInt < 0)) (Scaled.ofNat r) ∧
        Neighbour f.precision n.toInt.natAbs r) ∧
    ∀ ds, horner f.precision ds = roundToBits f.precision (Digits.value ds) ↔ ¬Misled f.precision ds := by
  have std := Format.standard hf
  have digital := Format.digital hf
  have number : n.toInt.natAbs = Digits.value n.digits := natAbs_toInt hn
  rw [toFloat_eq hn, number]
  refine ⟨?_, ?_, BinaryFloat.horner_eq_iff std.precision digital.few⟩
  · rw [← BinaryFloat.numberOfDigits_eq_roundNat_iff std digital, nearestTo, number, BinaryFloat.ofDigits]
    cases made : BinaryFloat.numberOfDigits f n.digits <;>
      cases nearest : f.roundNat (Digits.value n.digits) <;> simp [Scaled.ofNat]
  · intro finite
    obtain ⟨r, made, neighbour⟩ := BinaryFloat.exists_numberOfDigits std digital finite
    refine ⟨r, ?_, neighbour⟩
    rw [BinaryFloat.ofDigits, made]

/-- The second digit is rounded up to the base, and the two digits at the top are half way then. -/
theorem toFloat_misled :
    (⟨.positive, Magnitude.ofDigits [Digit.max, 0x20000000000001]⟩ : Integer).Coherent ∧
      Misled 53 [Digit.max, 0x20000000000001] := by
  have hn : (⟨.positive, Magnitude.ofDigits [Digit.max, 0x20000000000001]⟩ : Integer).Coherent := by
    decide
  have nearest := (toFloat_eq_nearestTo_iff (f := .double) (by decide) hn).1
  refine ⟨hn, by_contra fun straight => ?_⟩
  have away : ¬(⟨.positive, Magnitude.ofDigits [Digit.max, 0x20000000000001]⟩ : Integer).toFloat .double =
      nearestTo .double (⟨.positive, Magnitude.ofDigits [Digit.max, 0x20000000000001]⟩ : Integer).toInt := by
    decide +kernel
  exact away (nearest.2 (.inr straight))

/-- A number next to one with 53 bits becomes the one below that: rounding its digits in steps is not
    rounding it. -/
theorem toFloat_ne_nearestTo :
    (⟨.positive, Magnitude.ofDigits [Digit.max, 0x20000000000001]⟩ : Integer).toInt =
        2 ^ 117 + 2 ^ 65 - 1 ∧
      (⟨.positive, Magnitude.ofDigits [Digit.max, 0x20000000000001]⟩ : Integer).toFloat .double =
        .finite false (Scaled.ofNat (2 ^ 117)) ∧
      nearestTo .double (2 ^ 117 + 2 ^ 65 - 1) = .finite false (Scaled.ofNat (2 ^ 117 + 2 ^ 65)) ∧
      horner 53 [Digit.max, 0x20000000000001] ≠
        roundToBits 53 (Digits.value [Digit.max, 0x20000000000001]) := by
  decide +kernel

end Integer

end Multiprecision
