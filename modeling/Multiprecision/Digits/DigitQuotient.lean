import Multiprecision.Magnitude

/-! Division of a list of digits by one digit, from the highest place down: the remainder of the
    places above and the digit of a place are a two-digit number, which is divided. -/

namespace Multiprecision.Digits

/-- The quotient digits of `ds / m`, as many as `ds` has, and the remainder. -/
def divideByDigit (m : Digit) : Digits → Digits × Digit
  | [] => ([], 0)
  | d :: ds =>
    let (qs, r) := divideByDigit m ds
    let n := Digit.join r d
    (Digit.low (n / m.toNat) :: qs, Digit.low (n % m.toNat))

/-- Each two-digit quotient fits in one digit: the dividend recomposes, and the remainder is small. -/
theorem divideByDigit_law {m : Digit} (pos : 0 < m.toNat) (ds : Digits) :
    value ds = value (divideByDigit m ds).1 * m.toNat + (divideByDigit m ds).2.toNat ∧
      (divideByDigit m ds).2.toNat < m.toNat := by
  induction ds with
  | nil => exact ⟨by simp [divideByDigit], by simpa [divideByDigit] using pos⟩
  | cons d ds ih =>
    obtain ⟨h, lt⟩ := ih
    have hm := Digit.toNat_lt_base m
    have bound : Digit.join (divideByDigit m ds).2 d < m.toNat * Digit.base := Digit.join_lt lt
    have rem := Nat.mod_lt (Digit.join (divideByDigit m ds).2 d) pos
    have split := Nat.div_add_mod (Digit.join (divideByDigit m ds).2 d) m.toNat
    have whole : d.toNat + Digit.base * value ds =
        Digit.join (divideByDigit m ds).2 d + Digit.base * value (divideByDigit m ds).1 * m.toNat := by
      rw [h, Digit.join, Nat.mul_add, Nat.mul_assoc, Nat.mul_comm Digit.base (divideByDigit m ds).2.toNat]
      omega
    rw [divideByDigit, value_cons, value_cons, Digit.toNat_low_of_lt (Nat.div_lt_of_lt_mul bound),
      Digit.toNat_low_of_lt (Nat.lt_trans rem hm)]
    refine ⟨?_, rem⟩
    rw [whole, Nat.add_mul, Nat.mul_comm (_ / _)]
    omega

/-- Division by a digit above one makes a list of two or more digits smaller. -/
theorem value_divideByDigit_lt {m : Digit} (two : 2 ≤ m.toNat) {ds : Digits} (pos : 0 < value ds) :
    value (divideByDigit m ds).1 < value ds := by
  have law := (divideByDigit_law (Nat.lt_of_lt_of_le (by decide) two) ds).1
  have := Nat.mul_le_mul_left (value (divideByDigit m ds).1) two
  omega

end Multiprecision.Digits
