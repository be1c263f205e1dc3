import Mathlib.Algebra.Order.Field.Power
import Mathlib.Algebra.Order.Floor.Semifield
import Mathlib.Data.Rat.Floor
import Multiprecision.BinaryFloat.Format

/-! The rational numbers that scaled numbers and floating point values denote. The operations on scaled
    numbers are those on rational numbers. -/

namespace Multiprecision

@[simp] theorem cast_twoTo (k : Nat) : (twoTo k : ℚ) = 2 ^ k := Nat.cast_pow 2 k

namespace Scaled

/-- The rational number that a scaled number denotes. -/
def toRat (x : Scaled) : ℚ := x.mantissa * 2 ^ x.exponent

variable (x : Scaled)

theorem toRat_nonneg : 0 ≤ x.toRat := mul_nonneg (Nat.cast_nonneg _) (zpow_nonneg zero_le_two _)

@[simp] theorem toRat_ofNat (n : Nat) : (ofNat n).toRat = n := by
  rw [toRat, ofNat, zpow_zero, mul_one]

theorem toRat_scale (k : Int) : (x.scale k).toRat = x.toRat * 2 ^ k := by
  rw [toRat, toRat, scale, zpow_add₀ two_ne_zero, mul_assoc]

theorem toRat_eq_zero_iff : x.toRat = 0 ↔ x.mantissa = 0 := by
  have power : (2 : ℚ) ^ x.exponent ≠ 0 := zpow_ne_zero _ two_ne_zero
  rw [toRat, mul_eq_zero_iff_right power, Nat.cast_eq_zero]

/-- Without places below one the number is a natural number. -/
theorem toRat_of_nonneg {x : Scaled} (h : 0 ≤ x.exponent) :
    x.toRat = (x.mantissa * twoTo x.exponent.toNat : Nat) := by
  rw [toRat, Nat.cast_mul, cast_twoTo, ← zpow_natCast, Int.toNat_of_nonneg h]

theorem toRat_of_neg {x : Scaled} (h : x.exponent < 0) :
    x.toRat = x.mantissa / (twoTo (-x.exponent).toNat : Nat) := by
  rw [toRat, cast_twoTo, ← zpow_natCast, Int.toNat_of_nonneg (by omega), zpow_neg, div_inv_eq_mul]

theorem floor_eq : x.floor = ⌊x.toRat⌋₊ := by
  rw [floor]
  split
  · next h => rw [toRat_of_nonneg h, Nat.floor_natCast]
  · next h => rw [toRat_of_neg (Int.not_le.1 h), Nat.floor_div_eq_div]

theorem toRat_eq_floor {x : Scaled} (h : 0 ≤ x.exponent) : x.toRat = x.floor := by
  rw [floor, if_pos h, toRat_of_nonneg h]

theorem toRat_trunc : x.trunc.toRat = x.floor := by
  rw [trunc]
  split
  · next h => exact toRat_eq_floor h
  · exact toRat_ofNat _

theorem exponent_trunc : 0 ≤ x.trunc.exponent := by
  rw [trunc]
  split
  · next h => exact h
  · exact Int.le_refl 0

@[simp] theorem floor_trunc : x.trunc.floor = x.floor := by
  rw [floor_eq, toRat_trunc, Nat.floor_natCast]

/-- The remainder of a number without places below one is that of a natural number. -/
theorem toRat_mod {x : Scaled} (h : 0 ≤ x.exponent) (k : Nat) :
    (x.mod k).toRat = (x.floor % twoTo k : Nat) := by
  rw [mod, if_pos h, toRat_ofNat]

/-- The quotient of a number by a power of two, without its fraction. -/
theorem floor_scale_neg {x : Scaled} (h : 0 ≤ x.exponent) (k : Nat) :
    (x.scale (-k)).floor = x.floor / twoTo k := by
  rw [floor_eq, toRat_scale, toRat_eq_floor h, zpow_neg, zpow_natCast, ← div_eq_mul_inv, ← cast_twoTo,
    Nat.floor_div_eq_div]

/-- A number at a smaller exponent. -/
theorem toRat_finer (m : Nat) {d e : Int} (le : d ≤ e) :
    (⟨m * twoTo (e - d).toNat, d⟩ : Scaled).toRat = (⟨m, e⟩ : Scaled).toRat := by
  rw [toRat, toRat, Nat.cast_mul, cast_twoTo, mul_assoc, ← zpow_natCast, ← zpow_add₀ two_ne_zero,
    Int.toNat_of_nonneg (by omega), Int.sub_add_cancel]

/-- Of two forms of one number, the mantissa at the smaller exponent is a multiple of the other. -/
theorem mantissa_eq {x y : Scaled} (same : x.toRat = y.toRat) (le : x.exponent ≤ y.exponent) :
    x.mantissa = y.mantissa * twoTo (y.exponent - x.exponent).toNat := by
  have power : (2 : ℚ) ^ x.exponent ≠ 0 := zpow_ne_zero _ two_ne_zero
  rw [← toRat_finer y.mantissa le, toRat, toRat] at same
  exact_mod_cast mul_right_cancel₀ power same

end Scaled

namespace BinaryFloat

/-- The rational number that a value denotes, if any. Both zeros denote zero. -/
def toRat? : BinaryFloat → Option ℚ
  | .finite negative m => some (if negative then -m.toRat else m.toRat)
  | _ => none

/-- A value that denotes a number is finite, with the absolute value as its magnitude. It is negative
    where the number is, so that neither zero is. -/
theorem exists_of_toRat? {x : BinaryFloat} {q : ℚ} (h : x.toRat? = some q) :
    ∃ negative m, x = .finite negative m ∧ m.toRat = |q| ∧ (x.isNegative = true ↔ q < 0) := by
  rcases x with _ | _ | ⟨negative, m⟩
  · cases h
  · cases h
  · have nonneg := m.toRat_nonneg
    refine ⟨negative, m, rfl, ?_, ?_⟩
    · cases negative <;> cases h
      · exact (abs_of_nonneg nonneg).symm
      · rw [if_pos rfl, abs_neg, abs_of_nonneg nonneg]
    · cases negative <;> cases h
      · simpa [isNegative] using nonneg
      · simpa [isNegative, ← m.toRat_eq_zero_iff] using nonneg.lt_iff_ne'.symm

end BinaryFloat

end Multiprecision
