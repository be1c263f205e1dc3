import Multiprecision.Proofs.Integer.Canonical
import Multiprecision.Proofs.Integer.Float

/-! The difference of an integer and a floating point value. The value is negated for a negative integer,
    and added where it is negative then; through all of this it loses its fraction toward zero, as if it
    were made an integer first. -/

namespace Multiprecision

/-- A rational number without its fraction. -/
def towardZero (q : ℚ) : Int := if q < 0 then ⌈q⌉ else ⌊q⌋

theorem towardZero_neg (q : ℚ) : towardZero (-q) = -towardZero q := by
  rw [towardZero, towardZero]
  rcases lt_trichotomy q 0 with neg | rfl | pos
  · rw [if_neg (by linarith), if_pos neg, Int.floor_neg]
  · simp
  · rw [if_pos (by linarith), if_neg (by linarith), Int.ceil_neg]

namespace BinaryFloat

variable {f : Format} {x : BinaryFloat} {q : ℚ}

/-- A value of a format, as far as it is finite. -/
def Within (f : Format) : BinaryFloat → Prop
  | .finite _ m => f.Contains m
  | _ => True

theorem within_decode (std : f.Standard) (bits : Nat) : (f.decode bits).Within f := by
  cases value : f.decode bits with
  | nan => trivial
  | infinite s => trivial
  | finite s m => exact Format.contains_of_decode std value

theorem Within.neg (h : x.Within f) : x.neg.Within f := by cases x <;> exact h

theorem abs_neg (x : BinaryFloat) : x.neg.abs = x.abs := by cases x <;> rfl

theorem toRat?_neg (h : x.toRat? = some q) : x.neg.toRat? = some (-q) := by
  rcases x with _ | _ | ⟨s, m⟩
  · cases h
  · cases h
  · cases s <;> cases h <;> simp [neg, toRat?]

/-- Only what is not finite denotes no number, and it is refused as such. -/
theorem magnitude_abs_of_toRat?_eq_none (h : x.toRat? = none) : x.abs.magnitude f = .error .notFinite := by
  rcases x with _ | _ | ⟨s, m⟩
  · rfl
  · rfl
  · cases h

theorem magnitude_of_not_isNegative (h : x.isNegative = false) : x.magnitude f = x.abs.magnitude f := by
  rcases x with _ | _ | ⟨s, m⟩
  · rfl
  · rfl
  · rw [magnitude, if_neg (by rw [h]; decide)]
    rfl

theorem magnitude_neg_of_isNegative (h : x.isNegative = true) : x.neg.magnitude f = x.abs.magnitude f := by
  rcases x with _ | _ | ⟨s, m⟩
  · rfl
  · rfl
  · obtain rfl : s = true := (Bool.and_eq_true_iff.1 h).1
    rfl

/-- The magnitude of a value's absolute value, with the sign of the value, is the number without its
    fraction. -/
theorem exists_magnitude_abs (std : f.Standard) (within : x.Within f) (h : x.toRat? = some q) :
    ∃ b, x.abs.magnitude f = .ok b ∧
      (if x.isNegative then -(b.toNat : Int) else b.toNat) = towardZero q := by
  obtain ⟨negative, m, rfl, number, sign⟩ := exists_of_toRat? h
  obtain ⟨b, made, floor⟩ := exists_magnitude std within
  refine ⟨b, made, ?_⟩
  rw [towardZero, ← Integer.truncated_eq, floor, Scaled.floor_eq, number]
  simp only [sign]

end BinaryFloat

/-! ### Digits minus a value -/

section Difference

variable {f : BinaryFloat.Format} {x : BinaryFloat} {q : ℚ}

/-- A value below zero is added with its sign changed, and any other subtracted as it is. -/
theorem Digits.subtractFloat_eq (as : Digits) :
    Digits.subtractFloat f as x = (x.abs.magnitude f).map fun b =>
      if x.isNegative then ((Digits.add as b.digits).signed .positive, Digits.add as b.digits)
      else Digits.subtract as b.digits := by
  rw [Digits.subtractFloat]
  cases h : x.isNegative with
  | true => rw [if_pos rfl, BinaryFloat.magnitude_neg_of_isNegative h]; rfl
  | false => rw [BinaryFloat.magnitude_of_not_isNegative h]; rfl

/-- Sign and magnitude of digits minus a finite value make up the difference to its number without the
    fraction. -/
theorem Digits.exists_subtractFloat (std : f.Standard) (within : x.Within f) (h : x.toRat? = some q)
    (as : Digits) :
    ∃ d, Digits.subtractFloat f as x = .ok d ∧
      d.1.toInt * d.2.toNat = (Digits.value as : Int) - towardZero q := by
  obtain ⟨b, made, number⟩ := BinaryFloat.exists_magnitude_abs std within h
  rw [Digits.subtractFloat_eq, made, ← number]
  refine ⟨_, rfl, ?_⟩
  cases x.isNegative with
  | true =>
    change ((Digits.add as b.digits).signed .positive).toInt * ((Digits.add as b.digits).toNat : Int) = _
    rw [Magnitude.toInt_signed, Digits.toNat_add, Magnitude.value_digits, if_pos rfl, Sign.toInt]
    omega
  | false => exact Digits.toInt_subtract as b.digits

end Difference

namespace Integer

open BinaryFloat (Format)

variable {f : BinaryFloat.Format} {x : BinaryFloat} {q : ℚ} {n : Integer}

/-- A finite value becomes the integer of its number without the fraction. -/
theorem exists_ofFloat_towardZero (std : f.Standard) (within : x.Within f) (h : x.toRat? = some q) :
    ∃ y, ofFloat f x = .ok y ∧ y.Coherent ∧ y.toInt = towardZero q := by
  obtain ⟨b, made, number⟩ := BinaryFloat.exists_magnitude_abs std within h
  refine ⟨_, congrArg (Except.map _) made, coherent_make .., ?_⟩
  rw [toInt_ofNegative, number]

/-- An integer minus a finite value is the difference to its number without the fraction: the signs that
    are changed before and after for a negative integer cancel out. -/
theorem exists_subFloat (std : f.Standard) (within : x.Within f) (h : x.toRat? = some q)
    (hn : n.Coherent) :
    ∃ z, n.subFloat f x = .ok z ∧ z.Coherent ∧ z.toInt = n.toInt - towardZero q := by
  suffices made : ∃ z, n.subFloat f x = .ok z ∧ z.toInt = n.toInt - towardZero q by
    obtain ⟨z, difference, number⟩ := made
    exact ⟨z, difference, coherent_subFloat difference, number⟩
  have absolute : n.toInt = if n.isNegative then -(Digits.value n.digits : Int) else Digits.value n.digits :=
    toInt_eq hn
  rw [subFloat, absolute]
  cases n.isNegative with
  | false =>
    obtain ⟨d, made, number⟩ := Digits.exists_subtractFloat std within h n.digits
    refine ⟨_, congrArg (Except.map _) made, ?_⟩
    rw [toInt, Sign.toInt_mul, Sign.toInt, Int.mul_one, number]
    rfl
  | true =>
    obtain ⟨d, made, number⟩ :=
      Digits.exists_subtractFloat std within.neg (BinaryFloat.toRat?_neg h) n.digits
    refine ⟨_, congrArg (Except.map _) made, ?_⟩
    rw [towardZero_neg] at number
    rw [toInt, Sign.toInt_mul, Sign.toInt, Int.mul_neg_one, Int.neg_mul, number, if_pos rfl]
    omega

theorem subFloat_of_toRat?_eq_none (h : x.toRat? = none) : n.subFloat f x = .error .notFinite := by
  have refused : ∀ (as : Digits) {y : BinaryFloat}, y.abs = x.abs →
      Digits.subtractFloat f as y = .error .notFinite := by
    intro as y same
    rw [Digits.subtractFloat_eq, same, BinaryFloat.magnitude_abs_of_toRat?_eq_none h]
    rfl
  rw [subFloat]
  cases n.isNegative with
  | false => exact congrArg (Except.map _) (refused n.digits rfl)
  | true => exact congrArg (Except.map _) (refused n.digits x.abs_neg)

/-- A floating point value is subtracted as the integer it becomes, and refused where it becomes none. Below
    that, digits minus a finite value are sign and magnitude, in normal form, of the difference to its
    number without the fraction. -/
theorem float_difference (hf : f ∈ [Format.single, Format.double]) (bits : Nat) (hn : n.Coherent) :
    (∀ q, (f.decode bits).toRat? = some q →
      (∃ y, ofFloat f (f.decode bits) = .ok y ∧ y.toInt = towardZero q ∧
        n.subFloat f (f.decode bits) = .ok (n - y)) ∧
      ∀ as, ∃ d, Digits.subtractFloat f as (f.decode bits) = .ok d ∧ Digits.Normal d.2.digits ∧
        (d.1 = .zero ↔ d.2.digits = [0]) ∧
          d.1.toInt * Digits.value d.2.digits = (Digits.value as : Int) - towardZero q) ∧
    ((f.decode bits).toRat? = none →
      ofFloat f (f.decode bits) = .error .notFinite ∧
        n.subFloat f (f.decode bits) = .error .notFinite ∧
          ∀ as, Digits.subtractFloat f as (f.decode bits) = .error .notFinite) := by
  have std := Format.standard hf
  have within := BinaryFloat.within_decode std bits
  constructor
  · intro q finite
    constructor
    · obtain ⟨y, made, hy, number⟩ := exists_ofFloat_towardZero std within finite
      obtain ⟨z, difference, hz, total⟩ := exists_subFloat std within finite hn
      have same : z = n - y := hz.ext (coherent_sub hn hy) (by rw [total, toInt_sub, number])
      exact ⟨y, made, number, same ▸ difference⟩
    · intro as
      obtain ⟨d, made, number⟩ := Digits.exists_subtractFloat std within finite as
      refine ⟨d, made, d.2.normal, ?_, number⟩
      rw [subtractFloat_sign made, Magnitude.isZero_iff, Magnitude.toNat_eq_zero_iff]
  · intro none
    refine ⟨?_, subFloat_of_toRat?_eq_none none, ?_⟩
    · rw [ofFloat, BinaryFloat.magnitude_abs_of_toRat?_eq_none none]
      rfl
    · intro as
      rw [Digits.subtractFloat_eq, BinaryFloat.magnitude_abs_of_toRat?_eq_none none]
      rfl

/-- A negative value with a fraction is taken from a negative integer, and nothing is left. -/
theorem float_difference_cancels :
    (ofInt (-2)).Coherent ∧ (Format.double.decode 0xC006000000000000).toRat? = some (-11 / 4) ∧
      (ofInt (-2)).subFloat .double (Format.double.decode 0xC006000000000000) = .ok zero := by
  have hn : (ofInt (-2)).Coherent := coherent_ofInt _
  have value : Format.double.decode 0xC006000000000000 = .finite true ⟨11 * 2 ^ 49, -51⟩ := by decide
  have number : (Format.double.decode 0xC006000000000000).toRat? = some (-11 / 4) := by
    rw [value, BinaryFloat.toRat?, Scaled.toRat]
    norm_num
  obtain ⟨⟨y, made, whole, difference⟩, -⟩ := (float_difference (by decide) _ hn).1 _ number
  have truncated : towardZero (-11 / 4) = -2 := by
    rw [towardZero, if_pos (by norm_num), Int.ceil_eq_iff]
    norm_num
  have nothing : ofInt (-2) - y = zero := by
    refine (coherent_sub hn (coherent_ofFloat made)).ext coherent_zero ?_
    rw [toInt_sub, toInt_ofInt, whole, truncated]
    rfl
  exact ⟨hn, number, nothing ▸ difference⟩

end Integer

end Multiprecision
