import Multiprecision.Proofs.Digits.Places
import Multiprecision.Magnitude

/-! The order of lists of digits is the order of the numbers they denote, whatever zeros stand at the
    top. So a number has one list of digits in normal form, and a magnitude is known by its number. -/

namespace Multiprecision.Digits

theorem compare_digit (a b : Digit) : Ord.compare a b = Ord.compare a.toNat b.toNat := by
  simp only [Ord.compare, compareOfLessAndEq, UInt64.lt_iff_toNat_lt, ← UInt64.toNat_inj]

/-- The higher digits decide, and the lowest digit only where they agree. -/
theorem compare_add_mul {a b : Nat} (ha : a < Digit.base) (hb : b < Digit.base) (x y : Nat) :
    Ord.compare (a + Digit.base * x) (b + Digit.base * y) =
      (Ord.compare x y).then (Ord.compare a b) := by
  simp only [Digit.base] at ha hb ⊢
  rcases Nat.lt_trichotomy x y with h | rfl | h
  · rw [Nat.compare_eq_lt.2 h]
    exact Nat.compare_eq_lt.2 (by omega)
  · rw [Nat.compare_eq_eq.2 rfl, Ordering.eq_then]
    rcases Nat.lt_trichotomy a b with h | rfl | h
    · rw [Nat.compare_eq_lt.2 h]
      exact Nat.compare_eq_lt.2 (by omega)
    · rw [Nat.compare_eq_eq.2 rfl, Nat.compare_eq_eq.2 rfl]
    · rw [Nat.compare_eq_gt.2 h]
      exact Nat.compare_eq_gt.2 (by omega)
  · rw [Nat.compare_eq_gt.2 h]
    exact Nat.compare_eq_gt.2 (by omega)

theorem compareFromTop_eq : ∀ {as bs : Digits}, as.length = bs.length →
    compareFromTop as bs = Ord.compare (value as) (value bs)
  | [], [], _ => rfl
  | a :: as, b :: bs, h => by
    rw [compareFromTop, compareFromTop_eq (by simpa using h), compare_digit, value_cons, value_cons,
      compare_add_mul (Digit.toNat_lt_base a) (Digit.toNat_lt_base b)]
  | [], _ :: _, h => by simp at h
  | _ :: _, [], h => by simp at h

/-- A list that is longer once the zeros at the top are gone denotes a larger number. -/
theorem value_lt_of_length_trim_lt {as bs : Digits} (h : (trim as).length < (trim bs).length) :
    value as < value bs := by
  have ha := (length_trim_le_iff as (trim as).length).1 (Nat.le_refl _)
  have hb := mt (length_trim_le_iff bs (trim as).length).2 (Nat.not_le_of_lt h)
  omega

theorem compare_eq (as bs : Digits) : compare as bs = Ord.compare (value as) (value bs) := by
  rw [compare]
  rcases Nat.lt_trichotomy (trim as).length (trim bs).length with h | h | h
  · rw [Nat.compare_eq_lt.2 h, Nat.compare_eq_lt.2 (value_lt_of_length_trim_lt h)]
    rfl
  · rw [Nat.compare_eq_eq.2 h, Ordering.eq_then, compareFromTop_eq h, value_trim, value_trim]
  · rw [Nat.compare_eq_gt.2 h, Nat.compare_eq_gt.2 (value_lt_of_length_trim_lt h)]
    rfl

theorem compare_eq_lt_iff (as bs : Digits) : compare as bs = .lt ↔ value as < value bs := by
  rw [compare_eq, Nat.compare_eq_lt]

/-! ### One list for each number -/

theorem eq_of_value_eq : ∀ {as bs : Digits}, as.length = bs.length → value as = value bs → as = bs
  | [], [], _, _ => rfl
  | a :: as, b :: bs, h, e => by
    have ha := Digit.toNat_lt_base a
    have hb := Digit.toNat_lt_base b
    simp only [value_cons, Digit.base] at ha hb e
    have hd : a = b := UInt64.toNat_inj.1 (by omega)
    have hv : value as = value bs := by omega
    rw [hd, eq_of_value_eq (by simpa using h) hv]
  | [], _ :: _, h, _ => by simp at h
  | _ :: _, [], h, _ => by simp at h

/-- Lists without a zero at the top that denote one number are the same list. -/
theorem eq_of_value_eq_of_top {as bs : Digits} (ha : as.getLast? ≠ some 0) (hb : bs.getLast? ≠ some 0)
    (e : value as = value bs) : as = bs := by
  have hab := (length_le_iff ha bs.length).2 (e ▸ value_lt bs)
  have hba := (length_le_iff hb as.length).2 (e ▸ value_lt as)
  exact eq_of_value_eq (Nat.le_antisymm hab hba) e

end Multiprecision.Digits

namespace Multiprecision.Magnitude

theorem getLast?_digits {m : Magnitude} (h : m.toNat ≠ 0) : m.digits.getLast? ≠ some 0 := by
  intro top
  exact h ((toNat_eq_zero_iff m).2 (m.normal.2 top))

/-- A magnitude is known by the number it denotes. -/
theorem eq_of_toNat_eq {a b : Magnitude} (h : a.toNat = b.toNat) : a = b := by
  have digits : a.digits = b.digits := by
    by_cases z : a.toNat = 0
    · rw [(toNat_eq_zero_iff a).1 z, (toNat_eq_zero_iff b).1 (h ▸ z)]
    · exact Digits.eq_of_value_eq_of_top (getLast?_digits z) (getLast?_digits (h ▸ z)) h
  cases a
  cases b
  congr

@[simp] theorem toNat_zero : zero.toNat = 0 := rfl

/-- The digits of a magnitude denote its number. -/
theorem value_digits (m : Magnitude) : Digits.value m.digits = m.toNat := rfl

theorem value_digitsOfNat (n : Nat) : Digits.value (digitsOfNat n) = n := by
  fun_induction digitsOfNat n with
  | case1 => rfl
  | case2 n _ ih => rw [Digits.value_cons, ih, Digit.toNat_low, Nat.mod_add_div]

@[simp] theorem toNat_ofNat (n : Nat) : (ofNat n).toNat = n := by
  rw [ofNat, toNat_ofDigits, value_digitsOfNat]

theorem ofNat_toNat (m : Magnitude) : ofNat m.toNat = m := eq_of_toNat_eq (toNat_ofNat _)

theorem ofNat_value (ds : Digits) : ofNat (Digits.value ds) = ofDigits ds :=
  eq_of_toNat_eq ((toNat_ofNat _).trans (toNat_ofDigits ds).symm)

theorem length_pos (m : Magnitude) : 0 < m.length := List.length_pos_iff.2 m.normal.1

theorem toNat_lt_weight (m : Magnitude) : m.toNat < Digits.weight m.length := Digits.value_lt _

/-- A magnitude has as many digits as its number needs, and one for zero. -/
theorem length_le_iff (m : Magnitude) {n : Nat} (pos : 0 < n) :
    m.length ≤ n ↔ m.toNat < Digits.weight n := by
  by_cases z : m.toNat = 0
  · have length : m.length = 1 := congrArg List.length ((toNat_eq_zero_iff m).1 z)
    have weight := Digits.weight_pos n
    omega
  · exact Digits.length_le_iff (getLast?_digits z) n

end Multiprecision.Magnitude
