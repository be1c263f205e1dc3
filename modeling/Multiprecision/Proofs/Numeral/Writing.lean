import Mathlib.Data.Nat.Digits.Lemmas
import Multiprecision.Numeral.Writing
import Multiprecision.Proofs.Digits.Order

/-! The values that a numeral is written with are the places of the number in the base, the highest one
    not zero. Chunks of places from the lowest up, padded with zeros, join to the places of the whole
    because something is left above each of them. -/

namespace Multiprecision.Numeral

/-- All places below, then those of a number that is left above. -/
theorem lowPlaces_append {b n q k : Nat} (one_lt : 1 < b) (lt : n < b ^ k) (pos : 0 < q) :
    lowPlaces b k n ++ Nat.digits b q = Nat.digits b (n + b ^ k * q) := by
  induction k generalizing n with
  | zero =>
    obtain rfl : n = 0 := by simpa using lt
    rw [lowPlaces, List.nil_append, Nat.pow_zero, Nat.zero_add, Nat.one_mul]
  | succ k ih =>
    have whole : n + b ^ (k + 1) * q = n + b * (b ^ k * q) := by rw [Nat.pow_succ']; ring
    have rest : n / b < b ^ k := Nat.div_lt_of_lt_mul (by rwa [← Nat.pow_succ'])
    have above : 0 < b ^ k * q := Nat.mul_pos (Nat.pow_pos (by omega)) pos
    have nonzero : 0 < n + b * (b ^ k * q) :=
      Nat.add_pos_right _ (Nat.mul_pos (by omega) above)
    rw [lowPlaces, List.cons_append, ih rest, whole, Nat.digits_def' one_lt nonzero,
      Nat.add_mul_mod_self_left, Nat.add_mul_div_left _ _ (by omega)]

variable (b : Base)

theorem one_lt_toNat : 1 < b.toNat := b.two_le

theorem allPlaces_eq (n : Nat) : allPlaces b n = Nat.digits b.toNat n := by
  fun_induction allPlaces b n with
  | case1 => rw [Nat.digits_zero]
  | case2 n nonzero ih =>
    rw [ih, Nat.digits_def' (one_lt_toNat b) (Nat.pos_of_ne_zero nonzero)]

/-- Two digits or more leave something above a chunk. -/
theorem divideByDigit_chunkPower_pos {m : Magnitude} (long : 1 < m.length) :
    0 < Digits.value (Digits.divideByDigit b.chunkPower m.digits).1 := by
  obtain ⟨law, lt⟩ := Digits.divideByDigit_law b.chunkPower_pos m.digits
  have large : Digit.base ≤ m.toNat := by
    rw [← Digits.weight_one, ← Nat.not_lt, ← m.length_le_iff Nat.one_pos]
    omega
  have fits := Digit.toNat_lt_base b.chunkPower
  apply Nat.pos_of_ne_zero
  intro z
  rw [z, Nat.zero_mul, Nat.zero_add] at law
  rw [Magnitude.toNat] at large
  omega

/-- A magnitude is written as the places of its number. -/
theorem places_eq (m : Magnitude) : places b m = Nat.digits b.toNat m.toNat := by
  fun_induction places b m with
  | case1 m long d ih =>
    obtain ⟨law, lt⟩ := Digits.divideByDigit_law b.chunkPower_pos m.digits
    have above := divideByDigit_chunkPower_pos b long
    have span : b.chunkPower.toNat = b.toNat ^ b.chunkLength := b.toNat_chunkPower
    rw [span] at law lt
    rw [ih, Magnitude.toNat_ofDigits, lowPlaces_append (one_lt_toNat b) lt above, Magnitude.toNat, law]
    congr 1
    ring
  | case2 m short =>
    have one : m.length = 1 := by
      have pos := m.length_pos
      omega
    obtain ⟨d, digits⟩ := List.length_eq_one_iff.1 one
    rw [allPlaces_eq, Magnitude.toNat, digits]
    simp

/-- A numeral has the places of its number, the highest first, and one zero for zero. -/
theorem valuesIn_eq (ds : Digits) :
    valuesIn b ds =
      if Digits.value ds = 0 then [0] else (Nat.digits b.toNat (Digits.value ds)).reverse := by
  rw [valuesIn, places_eq, Magnitude.toNat_ofDigits]
  by_cases z : Digits.value ds = 0
  · rw [if_pos ((Digits.isZero_iff ds).2 z), if_pos z]
  · rw [if_neg (mt (Digits.isZero_iff ds).1 z), if_neg z]

end Multiprecision.Numeral
