import Multiprecision.BinaryFloat.Digits
import Multiprecision.Proofs.BinaryFloat.Rounding
import Multiprecision.Proofs.Digits.Places

/-! Between the numbers of a format and digits no rounding loses anything. What it means that no step of
    the one way or the other does is said first, with what then comes out; that it is so follows from
    the number of significant bits, which remainders, quotients and products by the base never raise. -/

namespace Multiprecision.BinaryFloat

variable (f : Format)

theorem twoTo_bits : twoTo Digit.bits = Digit.base := rfl

/-! ### From a number to its digits -/

/-- Every round on the way from a number to its digits is exact: the remainder and the quotient are not
    rounded, and the digit is the remainder. The rounds are enough for the last one to leave nothing. -/
def ExactRounds : Nat → Scaled → Prop
  | 0, _ => False
  | rounds + 1, x =>
    f.Exact (x.mod Digit.bits) ∧ f.Exact (x.scale (-Digit.bits)) ∧
      ((lowestDigit f x).toNat : ℚ) = (x.mod Digit.bits).toRat ∧
        ((aboveLowest f x).floor = 0 ∨ ExactRounds rounds (aboveLowest f x))

variable {f} {x : Scaled}

/-- What is left has no fraction. -/
theorem exponent_aboveLowest (f : Format) (x : Scaled) : 0 ≤ (aboveLowest f x).exponent :=
  Scaled.exponent_trunc _

theorem floor_aboveLowest (natural : 0 ≤ x.exponent) (exact : f.Exact (x.scale (-Digit.bits))) :
    (aboveLowest f x).floor = x.floor / Digit.base := by
  rw [aboveLowest, Scaled.floor_trunc, Scaled.floor_eq, exact, ← Scaled.floor_eq,
    Scaled.floor_scale_neg natural, twoTo_bits]

theorem toNat_lowestDigit (natural : 0 ≤ x.exponent) (exact : f.Exact (x.mod Digit.bits)) :
    (lowestDigit f x).toNat = x.floor % Digit.base := by
  have lt : x.floor % Digit.base < Digit.base := Nat.mod_lt _ Digits.base_pos
  rw [lowestDigit, toDigit, Scaled.floor_eq, exact, Scaled.toRat_mod natural, Nat.floor_natCast,
    twoTo_bits, Nat.min_eq_left (Nat.le_sub_one_of_lt lt), Digit.toNat_low_of_lt lt]

/-- Exact rounds give the digits of the number. -/
theorem value_digitsFrom {rounds : Nat} (natural : 0 ≤ x.exponent) (exact : ExactRounds f rounds x) :
    Digits.value (digitsFrom f rounds x) = x.floor := by
  induction rounds generalizing x with
  | zero => exact exact.elim
  | succ rounds ih =>
    obtain ⟨remainder, quotient, -, rest⟩ := exact
    have above := floor_aboveLowest natural quotient
    have digit := toNat_lowestDigit natural remainder
    have parts := Nat.mod_add_div x.floor Digit.base
    rw [digitsFrom, Digits.value_cons, digit]
    split
    · next none => rw [Digits.value_nil, ← none, above, parts]
    · next some => rw [ih (exponent_aboveLowest f x) (rest.resolve_left some), above, parts]

/-- The rounds of a number with few enough significant bits are exact. -/
theorem exactRounds (std : f.Standard) {rounds : Nat} (natural : 0 ≤ x.exponent)
    (fits : FitsBits f.precision x.floor) (pos : 0 < rounds) (enough : x.floor < Digits.weight rounds) :
    ExactRounds f rounds x := by
  induction rounds generalizing x with
  | zero => exact absurd pos (Nat.lt_irrefl 0)
  | succ rounds ih =>
    have least := std.least
    have remainder : f.Exact (x.mod Digit.bits) := by
      apply Format.exact_of_representable
      rw [Scaled.toRat_mod natural, ← mul_one (Nat.cast _), ← zpow_zero 2]
      exact Format.representable_of_fitsBits (fits.mod_twoTo _) (least.trans (by decide))
    have quotient : f.Exact (x.scale (-Digit.bits)) := by
      apply Format.exact_of_representable
      rw [Scaled.toRat_scale, Scaled.toRat_eq_floor natural]
      exact Format.representable_of_fitsBits fits least
    have above := floor_aboveLowest natural quotient
    have digit := toNat_lowestDigit natural remainder
    refine ⟨remainder, quotient, ?_, ?_⟩
    · rw [Scaled.toRat_mod natural, digit, twoTo_bits]
    · rw [or_iff_not_imp_left, above]
      intro some
      rw [Digits.weight_succ] at enough
      have fewer := Nat.div_lt_of_lt_mul enough
      have again : 0 < rounds := by
        rcases Nat.eq_zero_or_pos rounds with rfl | pos
        · exact absurd (Nat.lt_one_iff.1 fewer) some
        · exact pos
      rw [← above] at fewer
      exact ih (exponent_aboveLowest f x) (above ▸ fits.div_twoTo Digit.bits) again fewer

/-- The digits of the magnitude of a value are found in exact rounds. -/
def ExactMagnitude (f : Format) : BinaryFloat → Prop
  | .finite _ m => ExactRounds f (bitLength m.floor + 1) m.trunc
  | _ => False

section Finite

variable (std : f.Standard) {m : Scaled} (h : f.Contains m)

include std h

/-- One round for each bit, and one more, are enough. -/
theorem exactMagnitude (negative : Bool) : ExactMagnitude f (.finite negative m) := by
  have enough : m.floor < Digits.weight (bitLength m.floor + 1) :=
    calc m.floor
        < twoTo (bitLength m.floor) := (bitLength_le_iff ..).1 (Nat.le_refl _)
      _ ≤ Digits.weight (bitLength m.floor) := Nat.pow_le_pow_left (by decide) _
      _ ≤ Digits.weight (bitLength m.floor + 1) := Digits.weight_mono (Nat.le_succ _)
  apply exactRounds std m.exponent_trunc
  · rw [Scaled.floor_trunc]
    exact h.fitsBits_floor
  · exact Nat.succ_pos _
  · rwa [Scaled.floor_trunc]

/-- The magnitude of a finite value is the number without its fraction. -/
theorem exists_magnitude : ∃ d, magnitude f (.finite false m) = .ok d ∧ d.toNat = m.floor := by
  refine ⟨_, rfl, ?_⟩
  rw [Magnitude.toNat_ofDigits, value_digitsFrom m.exponent_trunc (exactMagnitude std h false),
    Scaled.floor_trunc]

end Finite

/-! ### From digits to a number -/

/-- Every step on the way from digits to a number is exact: the product with the base, the digit in the
    format and the sum are not rounded, and none of them is too large. -/
def ExactSteps (f : Format) : Digits → Prop
  | [] => True
  | d :: ds =>
    ExactSteps f ds ∧ ∃ above, numberOfDigits f ds = some above ∧
      f.roundNat (above * Digit.base) = some (above * Digit.base) ∧
        f.roundNat d.toNat = some d.toNat ∧
          f.roundNat (above * Digit.base + d.toNat) = some (above * Digit.base + d.toNat)

theorem value_step (d : Digit) (ds : Digits) :
    Digits.value ds * Digit.base + d.toNat = Digits.value (d :: ds) := by
  rw [Digits.value_cons, Nat.add_comm, Nat.mul_comm]

theorem numberOfDigits_cons (d : Digit) (ds : Digits) :
    numberOfDigits f (d :: ds) =
      (numberOfDigits f ds).bind fun above =>
        (f.roundNat (above * Digit.base)).bind fun high =>
          (f.roundNat d.toNat).bind fun low => f.roundNat (high + low) :=
  rfl

/-- Exact steps give the number of the digits. -/
theorem numberOfDigits_eq {ds : Digits} (exact : ExactSteps f ds) :
    numberOfDigits f ds = some (Digits.value ds) := by
  induction ds with
  | nil => rfl
  | cons d ds ih =>
    obtain ⟨rest, above, number, high, low, sum⟩ := exact
    obtain rfl : Digits.value ds = above := Option.some.inj ((ih rest).symm.trans number)
    rw [numberOfDigits_cons, number, Option.bind_some, high, Option.bind_some, low, Option.bind_some,
      sum, value_step]

/-- The steps of digits with few enough significant bits are exact. -/
theorem exactSteps {ds : Digits} (fits : FitsBits f.precision (Digits.value ds))
    (lt : Digits.value ds < twoTo (f.greatestExponent + 1)) : ExactSteps f ds := by
  induction ds with
  | nil => exact trivial
  | cons d ds ih =>
    have digit := d.toNat_lt_base
    have low : d.toNat = Digits.value (d :: ds) % Digit.base := by
      rw [Digits.value_cons, Nat.add_mul_mod_self_left, Nat.mod_eq_of_lt digit]
    have above : Digits.value ds = Digits.value (d :: ds) / Digit.base := by
      rw [Digits.value_cons, Nat.add_mul_div_left _ _ Digits.base_pos, Nat.div_eq_of_lt digit,
        Nat.zero_add]
    have sum := value_step d ds
    have aboveFits : FitsBits f.precision (Digits.value ds) := above ▸ fits.div_twoTo Digit.bits
    have steps := ih aboveFits (above ▸ Nat.lt_of_le_of_lt (Nat.div_le_self ..) lt)
    refine ⟨steps, Digits.value ds, numberOfDigits_eq steps, ?_, ?_, ?_⟩
    · exact Format.roundNat_eq (aboveFits.mul_twoTo Digit.bits) (by omega)
    · exact Format.roundNat_eq (low ▸ fits.mod_twoTo Digit.bits) (by omega)
    · rw [sum]
      exact Format.roundNat_eq fits lt

end Multiprecision.BinaryFloat
