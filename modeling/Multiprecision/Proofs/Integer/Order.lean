import Multiprecision.Integer.Fingerprint
import Multiprecision.Proofs.Integer.Native

/-! The order of integers is the order of the numbers they denote, between two integers as between an
    integer and a native value. Coherent integers that denote one number are one integer, so that equality,
    order and fingerprints never disagree. Main statement: all of this, down to the digits, where zeros at
    the top do not count. -/

namespace Multiprecision

namespace Magnitude

theorem compare_eq (a b : Magnitude) : compare a b = Ord.compare a.toNat b.toNat :=
  Digits.compare_eq a.digits b.digits

/-- Magnitudes are of equal order exactly when they are equal. -/
theorem compare_eq_eq_iff (a b : Magnitude) : compare a b = .eq ↔ a = b := by
  rw [compare_eq, Nat.compare_eq_eq]
  constructor
  · exact eq_of_toNat_eq
  · rintro rfl
    rfl

end Magnitude

namespace Integer

section Integers

variable {x y : Integer} (hx : x.Coherent) (hy : y.Coherent)

include hx hy

/-- A number has one coherent integer. -/
theorem toInt_inj : x.toInt = y.toInt ↔ x = y := by
  constructor
  · exact hx.ext hy
  · rintro rfl
    rfl

/-- Integers are of equal order exactly when they are equal. -/
theorem compare_eq_eq_iff : compare x y = .eq ↔ x = y := by
  rw [compare_eq hx hy, Int.compare_eq_eq, toInt_inj hx hy]

theorem lt_iff : x < y ↔ x.toInt < y.toInt := by
  change (compare x y).isLT = true ↔ _
  rw [Ordering.isLT_iff_eq_lt, compare_eq hx hy, Int.compare_eq_lt]

theorem le_iff : x ≤ y ↔ x.toInt ≤ y.toInt := by
  change (compare x y).isLE = true ↔ _
  rw [Ordering.isLE_iff_ne_gt, compare_eq hx hy]
  exact (not_congr Int.compare_eq_gt).trans Int.not_lt

/-- Integers say the same message exactly when they denote the same number. -/
theorem message_eq_iff : x.message = y.message ↔ x.toInt = y.toInt := by
  rw [toInt_inj hx hy]
  constructor
  · exact message_injective
  · rintro rfl
    rfl

end Integers

section Native

variable {x : Integer} (hx : x.Coherent) {t : NativeType} (p : Native t)

include hx

theorem compareNative_eq : x.compareNative p = Ord.compare x.toInt p.toInt := by
  rw [compareNative, compare_eq hx (coherent_ofNative p), toInt_ofNative]

theorem nativeCompare_eq : nativeCompare p x = Ord.compare p.toInt x.toInt := by
  rw [nativeCompare, compare_eq (coherent_ofNative p) hx, toInt_ofNative]

theorem eqNative_iff : x.eqNative p = true ↔ x.toInt = p.toInt := by
  rw [eqNative, beq_iff_eq, ← toInt_inj hx (coherent_ofNative p), toInt_ofNative]

end Native

/-- Comparison is the order of numbers. The order of two coherent integers, and of one and a native value
    on either side, is that of the numbers they denote. Integers are equal exactly when they are of equal
    order, and those of one number are one integer, which says one message and has one fingerprint. So it
    is with digits, whatever zeros they carry at the top, and with magnitudes. -/
theorem order_of_numbers :
    (∀ x y : Integer, x.Coherent → y.Coherent →
      compare x y = Ord.compare x.toInt y.toInt ∧
        compare? x y = some (Ord.compare x.toInt y.toInt) ∧
        (x < y ↔ x.toInt < y.toInt) ∧
        (x ≤ y ↔ x.toInt ≤ y.toInt) ∧
        ((x == y) = true ↔ compare x y = .eq) ∧
        (x.toInt = y.toInt → x = y ∧ hash x = hash y) ∧
        (x.message = y.message ↔ x.toInt = y.toInt)) ∧
      (∀ (x : Integer) (t : NativeType) (p : Native t), x.Coherent →
        x.compareNative p = Ord.compare x.toInt p.toInt ∧
          nativeCompare p x = Ord.compare p.toInt x.toInt ∧
          (x.eqNative p = true ↔ x.toInt = p.toInt) ∧
          (nativeEq p x = true ↔ p.toInt = x.toInt)) ∧
      (∀ as bs : Digits, Digits.compare as bs = Ord.compare (Digits.value as) (Digits.value bs)) ∧
      ∀ a b : Magnitude,
        Magnitude.compare a b = Ord.compare a.toNat b.toNat ∧
          (Magnitude.compare a b = .eq ↔ a = b) := by
  refine ⟨?_, ?_, Digits.compare_eq, ?_⟩
  · intro x y hx hy
    have order := compare_eq hx hy
    refine ⟨order, congrArg some order, lt_iff hx hy, le_iff hx hy, ?_, ?_, message_eq_iff hx hy⟩
    · rw [beq_iff_eq, compare_eq_eq_iff hx hy]
    · intro same
      obtain rfl := (toInt_inj hx hy).1 same
      exact ⟨rfl, rfl⟩
  · intro x t p hx
    refine ⟨compareNative_eq hx p, nativeCompare_eq hx p, eqNative_iff hx p, ?_⟩
    rw [nativeEq, eqNative_iff hx p, eq_comm]
  · intro a b
    exact ⟨Magnitude.compare_eq a b, Magnitude.compare_eq_eq_iff a b⟩

/-- Two negative integers at the edge of a digit, and one of them beside the least native value of 8
    bits. -/
theorem order_of_numbers_negative :
    compare (make .negative (.ofDigits [0, 1])) (make .negative (.ofDigits [Digit.max, 0])) = .lt ∧
      compareNative (make .negative (.ofDigits [0, 1]))
        (⟨-128, by decide, by decide⟩ : Native ⟨true, .w8⟩) = .lt := by
  constructor
  · obtain ⟨order, -⟩ := order_of_numbers.1 (make .negative (.ofDigits [0, 1]))
      (make .negative (.ofDigits [Digit.max, 0])) (by decide) (by decide)
    exact order.trans (by decide)
  · obtain ⟨order, -⟩ := order_of_numbers.2.1 (make .negative (.ofDigits [0, 1])) ⟨true, .w8⟩
      ⟨-128, by decide, by decide⟩ (by decide)
    exact order.trans (by decide)

end Integer

end Multiprecision
