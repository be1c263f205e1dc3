import Multiprecision.Integer.Arithmetic
import Multiprecision.Proofs.Digits.RecursiveDivision

/-! Both divisions give the one quotient and remainder there is, as magnitudes in normal form, and fail
    for a divisor of value zero alone. So the rule that chooses between them never shows. -/

namespace Multiprecision.Digits

/-- The quotient and the remainder of the numbers that two lists denote. -/
def quotientRemainder (as bs : Digits) : Except Error (Magnitude × Magnitude) :=
  if value bs = 0 then .error .divisionByZero
  else .ok (Magnitude.ofNat (value as / value bs), Magnitude.ofNat (value as % value bs))

theorem Divided.eq_ofNat {t d : Nat} {x : Magnitude × Magnitude} (h : Divided t d x) :
    x = (Magnitude.ofNat (t / d), Magnitude.ofNat (t % d)) := by
  obtain ⟨hq, hr⟩ := h
  refine Prod.ext ?_ ?_
  · exact Magnitude.eq_of_toNat_eq (hq.trans (Magnitude.toNat_ofNat _).symm)
  · exact Magnitude.eq_of_toNat_eq (hr.trans (Magnitude.toNat_ofNat _).symm)

/-- There is one answer to each division. -/
theorem Answers.eq_quotientRemainder {as bs : Digits} {answer : Except Error (Magnitude × Magnitude)}
    (h : Answers (value as) (value bs) answer) : answer = quotientRemainder as bs := by
  rw [quotientRemainder]
  by_cases zero : value bs = 0
  · rw [if_pos zero, h.refuses.2 zero]
  · obtain ⟨q, r, eq, -, -, law, lt⟩ := h.divides zero
    rw [Nat.add_comm, Nat.mul_comm] at law
    rw [if_neg zero, eq, (Divided.of_law law.symm lt).eq_ofNat]

theorem longDivide_eq (as bs : Digits) : longDivide as bs = quotientRemainder as bs :=
  (answers_longDivide as bs).eq_quotientRemainder

theorem longDivideWide_eq (as : Digits) (w : Wide) :
    longDivideWide as w = quotientRemainder as w.digits := by
  have answers := answers_longDivideWide as w
  rw [← Wide.value_digits w] at answers
  exact answers.eq_quotientRemainder

theorem halvingDivide_eq (as bs : Digits) : halvingDivide as bs = quotientRemainder as bs := by
  rw [halvingDivide, quotientRemainder]
  by_cases h : value bs = 0
  · rw [if_pos ((isZero_iff bs).2 h), if_pos h]
  · rw [if_neg (mt (isZero_iff bs).1 h), if_neg h, (halvingDivideNonzero_spec as h).eq_ofNat]

/-- Zeros at the top of either number do not show. -/
theorem quotientRemainder_trim (as bs : Digits) :
    quotientRemainder (trim as) (trim bs) = quotientRemainder as bs := by
  simp only [quotientRemainder, value_trim]

theorem divide_eq (as bs : Digits) (rule : DivisionRule) :
    divide as bs rule = quotientRemainder as bs := by
  rw [divide]
  split
  · next empty =>
    rw [quotientRemainder, if_pos ((isZero_iff bs).1 empty)]
  · split
    · rw [halvingDivide_eq, quotientRemainder_trim]
    · rw [longDivide_eq, quotientRemainder_trim]

theorem divRemBy_eq (rule rule' : DivisionRule) (x y : Integer) :
    Integer.divRemBy rule x y = Integer.divRemBy rule' x y := by
  simp only [Integer.divRemBy, divideSigned, divide_eq]

/-- The algorithm never shows: not between the two divisions, whatever zeros the numbers carry at the
    top, not through the rule that chooses one, and not in a division of integers. -/
theorem divisions_agree :
    (∀ as bs : Digits, halvingDivide as bs = longDivide as bs) ∧
      (∀ (rule : DivisionRule) (as bs : Digits), divide as bs rule = longDivide as bs) ∧
      ∀ (rule rule' : DivisionRule) (x y : Integer),
        Integer.divRemBy rule x y = Integer.divRemBy rule' x y := by
  refine ⟨?_, ?_, divRemBy_eq⟩
  · intro as bs
    rw [halvingDivide_eq, longDivide_eq]
  · intro rule as bs
    rw [divide_eq, longDivide_eq]

end Multiprecision.Digits
