import Multiprecision.Integer.Float
import Multiprecision.Proofs.BinaryFloat.Digits
import Multiprecision.Proofs.Integer.Text

/-! Floating point values survive the way to an integer and back, but for their fraction. Both ways go
    digit by digit through operations that round, and none of these roundings loses anything. -/

namespace Multiprecision.Integer

open BinaryFloat (Format ExactMagnitude ExactSteps)

variable {f : Format}

/-- The number without its fraction is the absolute value rounded down, with the sign. -/
theorem truncated_eq (q : ℚ) :
    (if q < 0 then -(⌊|q|⌋₊ : Int) else ⌊|q|⌋₊) = if q < 0 then ⌈q⌉ else ⌊q⌋ := by
  rw [Int.natCast_floor_eq_floor (abs_nonneg q)]
  split
  · next h => rw [abs_of_neg h, Int.floor_neg, neg_neg]
  · next h => rw [abs_of_nonneg (not_lt.1 h)]

/-- The integer of a finite value has the magnitude without its fraction, and the sign. -/
theorem exists_ofFloat (std : f.Standard) (negative : Bool) {m : Scaled} (h : f.Contains m) :
    ∃ n, ofFloat f (.finite negative m) = .ok n ∧ n.Coherent ∧
      n.toInt = if (BinaryFloat.finite negative m).isNegative then -(m.floor : Int) else m.floor := by
  obtain ⟨d, made, number⟩ := BinaryFloat.exists_magnitude std h
  refine ⟨_, congrArg (Except.map _) made, coherent_make .., ?_⟩
  rw [toInt_ofNegative, number]

/-- An integer with few enough significant bits is a value of the format, unless it is too large. -/
theorem toRat?_toFloat {n : Integer} (hn : n.Coherent) (fits : FitsBits f.precision n.magnitude.toNat)
    (lt : n.magnitude.toNat < twoTo (f.greatestExponent + 1)) :
    ExactSteps f n.digits ∧ (n.toFloat f).toRat? = some (n.toInt : ℚ) := by
  have exact : ExactSteps f n.digits := BinaryFloat.exactSteps fits lt
  have number : Digits.value n.digits = n.magnitude.toNat := rfl
  refine ⟨exact, ?_⟩
  rw [toFloat, BinaryFloat.ofDigits, BinaryFloat.numberOfDigits_eq exact, toInt_eq hn, number]
  cases n.isNegative with
  | true => simp [BinaryFloat.toRat?]
  | false => simp [BinaryFloat.toRat?]

/-- A finite value of either format becomes the integer of its number without the fraction, and this
    integer has exactly that number as its value in the format. Nothing on the way there or back is
    changed by a rounding. -/
theorem float_round_trip (hf : f ∈ [Format.single, Format.double]) {bits : Nat} {q : ℚ}
    (finite : (f.decode bits).toRat? = some q) :
    ∃ n, ofFloat f (f.decode bits) = .ok n ∧ n.Coherent ∧
      n.toInt = (if q < 0 then ⌈q⌉ else ⌊q⌋) ∧
        (n.toFloat f).toRat? = some (n.toInt : ℚ) ∧
          ExactMagnitude f (f.decode bits) ∧ ExactSteps f n.digits := by
  have std := Format.standard hf
  obtain ⟨negative, m, value, magnitude, sign⟩ := BinaryFloat.exists_of_toRat? finite
  have contains := Format.contains_of_decode std value
  rw [value] at sign ⊢
  obtain ⟨n, made, hn, number⟩ := exists_ofFloat std negative contains
  have whole : n.magnitude.toNat = m.floor := by
    rw [← natAbs_toInt hn, number]
    split <;> omega
  have fits : FitsBits f.precision n.magnitude.toNat := whole ▸ contains.fitsBits_floor
  have lt : n.magnitude.toNat < twoTo (f.greatestExponent + 1) := whole ▸ contains.floor_lt
  obtain ⟨steps, back⟩ := toRat?_toFloat hn fits lt
  refine ⟨n, made, hn, ?_, back, BinaryFloat.exactMagnitude std contains negative, steps⟩
  rw [number, ← truncated_eq, ← magnitude, ← Scaled.floor_eq]
  simp only [sign]

/-- A negative value whose mantissa lies in two digits. -/
theorem float_round_trip_two_digits :
    ∃ n, ofFloat .double (Format.double.decode 0xC470000000000001) = .ok n ∧
      n.toInt = -(2 ^ 52 + 1) * 2 ^ 20 ∧
        (n.toFloat .double).toRat? = some (-(2 ^ 52 + 1) * 2 ^ 20) := by
  have value : Format.double.decode 0xC470000000000001 = .finite true ⟨2 ^ 52 + 1, 20⟩ := by decide
  have number : (Format.double.decode 0xC470000000000001).toRat? =
      some ((-(2 ^ 52 + 1) * 2 ^ 20 : Int) : ℚ) := by
    rw [value, BinaryFloat.toRat?, Scaled.toRat]
    norm_num
  obtain ⟨n, made, -, whole, back, -⟩ := float_round_trip (by decide) number
  rw [Int.ceil_intCast, Int.floor_intCast, ite_self] at whole
  rw [whole] at back
  exact ⟨n, made, whole, back.trans (by norm_num)⟩

end Multiprecision.Integer
