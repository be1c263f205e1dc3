import Multiprecision.Wide

/-! What a word of two digits denotes. Its digits, and its magnitude, denote the word itself, so that an
    operation on a list of digits and a word is the operation on two lists. -/

namespace Multiprecision

namespace Wide

theorem toNat_lt (w : Wide) : w.toNat < Digit.base * Digit.base := w.isLt

/-- The two digits of a word denote it. -/
theorem join_low_high (w : Wide) :
    (Digit.low w.toNat).toNat + Digit.base * (Digit.high w.toNat).toNat = w.toNat := by
  have high : w.toNat / Digit.base < Digit.base := Nat.div_lt_of_lt_mul (toNat_lt w)
  rw [Digit.toNat_low, Digit.toNat_high, Nat.mod_eq_of_lt high, Nat.mod_add_div]

@[simp] theorem value_digits (w : Wide) : Digits.value w.digits = w.toNat := by
  have join := join_low_high w
  rw [digits]
  split
  · next z =>
    rw [z] at join
    simpa using join
  · simpa using join

@[simp] theorem toNat_magnitude (w : Wide) : w.magnitude.toNat = w.toNat := by
  rw [magnitude]
  split
  · next small => simpa using Digit.toNat_low_of_lt small
  · simpa using join_low_high w

end Wide

end Multiprecision
