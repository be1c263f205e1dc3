import Multiprecision.Digits.Shift
import Multiprecision.Power
import Multiprecision.Proofs.Digits.Order

/-! Shifts of digits are products and quotients by a power of two. With the power and its cofactor in
    the base named, each law of one digit is an identity of division by the one or the other. -/

namespace Multiprecision

theorem twoTo_mul_twoTo {n : Nat} (h : n ≤ Digit.bits) :
    twoTo n * twoTo (Digit.bits - n) = Digit.base := by
  rw [← twoTo_add, Nat.add_sub_cancel' h]
  rfl

namespace Digit

variable {n : Nat}

theorem toNat_amount (h : n < bits) : n.toUInt64.toNat % 64 = n := by
  simp only [bits] at h
  rw [Nat.toUInt64_eq, UInt64.toNat_ofNat', Nat.mod_eq_of_lt (a := n) (by omega), Nat.mod_eq_of_lt h]

theorem toNat_shiftLeft (h : n < bits) (d : Digit) :
    (d <<< n.toUInt64).toNat = twoTo n * (d.toNat % twoTo (bits - n)) := by
  have split : (2 : Nat) ^ 64 = twoTo n * twoTo (bits - n) := (twoTo_mul_twoTo (Nat.le_of_lt h)).symm
  rw [UInt64.toNat_shiftLeft, toNat_amount h, Nat.shiftLeft_eq, Nat.mul_comm, split]
  exact Nat.mul_mod_mul_left ..

theorem toNat_shiftRight (h : n < bits) (d : Digit) :
    (d >>> n.toUInt64).toNat = d.toNat / twoTo n := by
  rw [UInt64.toNat_shiftRight, toNat_amount h, Nat.shiftRight_eq_div_pow]
  rfl

/-- Bits above a place and bits below it do not meet. -/
theorem toNat_lor {a b : Digit} {x : Nat} (ha : a.toNat = twoTo n * x) (hb : b.toNat < twoTo n) :
    (a ||| b).toNat = a.toNat + b.toNat := by
  rw [UInt64.toNat_or, ha]
  exact (Nat.two_pow_add_eq_or_of_lt hb x).symm

/-- A digit shifted up and the bits that leave it recompose to the product. -/
theorem shiftUp_law (pos : 0 < n) (h : n < bits) (d : Digit) {c : Digit} (hc : c.toNat < twoTo n) :
    ((d <<< n.toUInt64) ||| c).toNat + base * (d >>> (bits - n).toUInt64).toNat =
      d.toNat * twoTo n + c.toNat := by
  have split := Nat.mod_add_div d.toNat (twoTo (bits - n))
  rw [toNat_lor (toNat_shiftLeft h d) hc, toNat_shiftLeft h, toNat_shiftRight (by omega),
    ← twoTo_mul_twoTo (Nat.le_of_lt h)]
  calc twoTo n * (d.toNat % twoTo (bits - n)) + c.toNat
        + twoTo n * twoTo (bits - n) * (d.toNat / twoTo (bits - n))
      = twoTo n * (d.toNat % twoTo (bits - n)
          + twoTo (bits - n) * (d.toNat / twoTo (bits - n))) + c.toNat := by
        rw [Nat.mul_add, Nat.mul_assoc]
        omega
    _ = d.toNat * twoTo n + c.toNat := by rw [split, Nat.mul_comm]

theorem shiftRight_lt (pos : 0 < n) (h : n < bits) (d : Digit) :
    (d >>> (bits - n).toUInt64).toNat < twoTo n := by
  rw [toNat_shiftRight (by omega)]
  refine Nat.div_lt_of_lt_mul ?_
  rw [Nat.mul_comm, twoTo_mul_twoTo (Nat.le_of_lt h)]
  exact toNat_lt_base d

/-- A digit shifted down, below the bits that come in at its top. -/
theorem shiftDown_law (h : n < bits) (d : Digit) {c : Digit} {k : Nat}
    (hc : c.toNat = twoTo (bits - n) * k) :
    ((d >>> n.toUInt64) ||| c).toNat = d.toNat / twoTo n + twoTo (bits - n) * k := by
  have lt : (d >>> n.toUInt64).toNat < twoTo (bits - n) := by
    rw [toNat_shiftRight h]
    refine Nat.div_lt_of_lt_mul ?_
    rw [twoTo_mul_twoTo (Nat.le_of_lt h)]
    exact toNat_lt_base d
  rw [UInt64.or_comm, toNat_lor hc lt, toNat_shiftRight h, hc, Nat.add_comm]

/-- The shift by the leading zeros sets the top bit and loses none. -/
theorem leadingZeros_spec {d : Digit} (h : d ≠ 0) :
    leadingZeros d < bits ∧ base ≤ 2 * (d.toNat * twoTo (leadingZeros d)) ∧
      (d.toNat + 1) * twoTo (leadingZeros d) ≤ base := by
  have hd : d.toNat ≠ 0 := Nat.ne_of_gt (toNat_pos h)
  have top : d.toNat.log2 < 64 := (Nat.log2_lt hd).2 d.toNat_lt
  have lo : twoTo d.toNat.log2 ≤ d.toNat := Nat.log2_self_le hd
  have hi : d.toNat + 1 ≤ twoTo (d.toNat.log2 + 1) := Nat.lt_log2_self
  have exp : d.toNat.log2 + 1 + leadingZeros d = bits := by
    rw [leadingZeros, if_neg h]
    simp only [bits]
    omega
  have whole : twoTo (d.toNat.log2 + 1) * twoTo (leadingZeros d) = base := by
    rw [← twoTo_add, exp]
    rfl
  refine ⟨by omega, ?_, ?_⟩
  · rw [← whole, twoTo_succ, Nat.mul_assoc]
    exact Nat.mul_le_mul_left _ (Nat.mul_le_mul_right _ lo)
  · rw [← whole]
    exact Nat.mul_le_mul_right _ hi

end Digit

namespace Digits

variable {n : Nat}

theorem value_shiftUpFrom (pos : 0 < n) (h : n < Digit.bits) (ds : Digits) {c : Digit}
    (hc : c.toNat < twoTo n) : value (shiftUpFrom n ds c) = value ds * twoTo n + c.toNat := by
  induction ds generalizing c with
  | nil =>
    rw [shiftUpFrom]
    split <;> simp_all
  | cons d ds ih =>
    have law := Digit.shiftUp_law pos h d hc
    rw [shiftUpFrom, value_cons, ih (Digit.shiftRight_lt pos h d), value_cons, Nat.mul_add,
      Nat.add_mul, Nat.mul_assoc]
    omega

@[simp] theorem value_shiftUp (h : n < Digit.bits) (ds : Digits) :
    value (shiftUp n ds) = value ds * twoTo n := by
  rw [shiftUp]
  split
  · next z => rw [z, twoTo_zero, Nat.mul_one]
  · next z =>
    rw [value_shiftUpFrom (by omega) h ds (by simpa using twoTo_pos n), UInt64.toNat_zero, Nat.add_zero]

/-- A shift that fits in the places of a list takes no more places. -/
theorem length_shiftUpFrom (pos : 0 < n) (h : n < Digit.bits) {ds : Digits} {c : Digit}
    (hc : c.toNat < twoTo n) (fits : value ds * twoTo n + c.toNat < weight ds.length) :
    (shiftUpFrom n ds c).length = ds.length := by
  induction ds generalizing c with
  | nil =>
    have z : c = 0 := UInt64.toNat_inj.1 (by simpa using fits)
    simp [shiftUpFrom, z]
  | cons d ds ih =>
    have law := Digit.shiftUp_law pos h d hc
    rw [value_cons, List.length_cons, weight_succ, Nat.add_mul, Nat.mul_assoc] at fits
    rw [shiftUpFrom, List.length_cons, List.length_cons]
    rw [ih (Digit.shiftRight_lt pos h d) (Nat.lt_of_mul_lt_mul_left (a := Digit.base) ?_)]
    rw [Nat.mul_add]
    omega

theorem length_shiftUp (h : n < Digit.bits) {ds : Digits}
    (fits : value ds * twoTo n < weight ds.length) : (shiftUp n ds).length = ds.length := by
  rw [shiftUp]
  split
  · rfl
  · exact length_shiftUpFrom (by omega) h (by simpa using twoTo_pos n) (by simpa using fits)

/-- The digits shifted down are the quotient, and the bits that leave the lowest are the remainder. -/
theorem shiftDownTo_law (pos : 0 < n) (h : n < Digit.bits) (ds : Digits) :
    value (shiftDownTo n ds).1 = value ds / twoTo n ∧
      (shiftDownTo n ds).2.toNat = twoTo (Digit.bits - n) * (value ds % twoTo n) := by
  induction ds with
  | nil => simp [shiftDownTo]
  | cons d ds ih =>
    have split := Nat.mod_add_div (value ds) (twoTo n)
    have back : Digit.bits - (Digit.bits - n) = n := by omega
    have whole : d.toNat + Digit.base * value ds =
        d.toNat + twoTo n * (twoTo (Digit.bits - n) * value ds) := by
      rw [← Nat.mul_assoc, twoTo_mul_twoTo (Nat.le_of_lt h)]
    simp only [shiftDownTo, value_cons]
    constructor
    · rw [Digit.shiftDown_law h d ih.2, ih.1, whole, Nat.add_mul_div_left _ _ (twoTo_pos n),
        ← twoTo_mul_twoTo (Nat.le_of_lt h), Nat.mul_comm (twoTo n), Nat.mul_assoc, Nat.add_assoc,
        ← Nat.mul_add, split]
    · rw [Digit.toNat_shiftLeft (by omega) d, whole, Nat.add_mul_mod_self_left, back]

@[simp] theorem value_shiftDown (h : n < Digit.bits) (ds : Digits) :
    value (shiftDown n ds) = value ds / twoTo n := by
  rw [shiftDown]
  split
  · next z => rw [z, twoTo_zero, Nat.div_one]
  · exact (shiftDownTo_law (by omega) h ds).1

end Digits

end Multiprecision
