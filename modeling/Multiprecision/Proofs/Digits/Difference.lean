import Multiprecision.Digits.Difference
import Multiprecision.Proofs.Digits.Order
import Multiprecision.Proofs.Wide

/-! The difference of two lists of digits as a signed number. In a run of differences each step leaves
    the distance of what the step before has left and its subtrahend, and its sign is their order. -/

namespace Multiprecision.Digits

/-- Each of the three signs stands for one order of the two numbers. -/
theorem sign_subtract_iff (as bs : Digits) :
    ((subtract as bs).1 = .positive ↔ value bs < value as) ∧
      ((subtract as bs).1 = .zero ↔ value as = value bs) ∧
      ((subtract as bs).1 = .negative ↔ value as < value bs) := by
  rw [sign_subtract]
  rcases Nat.lt_trichotomy (value as) (value bs) with less | same | more
  · rw [if_pos less]
    simp only [reduceCtorEq, true_iff, false_iff]
    omega
  · rw [if_neg (by omega), if_pos same]
    simp only [reduceCtorEq, true_iff, false_iff]
    omega
  · rw [if_neg (by omega), if_neg (by omega)]
    simp only [reduceCtorEq, true_iff, false_iff]
    omega

theorem sign_subtract_eq_zero_iff (as bs : Digits) :
    (subtract as bs).1 = .zero ↔ (subtract as bs).2.isZero = true := by
  rw [(sign_subtract_iff as bs).2.1, Magnitude.isZero_iff, toNat_subtract]
  omega

/-- Sign and magnitude of a difference make up the difference. -/
theorem toInt_subtract (as bs : Digits) :
    (subtract as bs).1.toInt * (subtract as bs).2.toNat = (value as : Int) - value bs := by
  rw [toNat_subtract, sign_subtract]
  split
  · next h => simp only [Sign.toInt]; omega
  · next h => split <;> simp only [Sign.toInt] <;> omega

/-- A difference depends on the numbers alone. -/
theorem subtract_congr (as : Digits) {bs cs : Digits} (h : value bs = value cs) :
    subtract as bs = subtract as cs := by
  refine Prod.ext ?_ (Magnitude.eq_of_toNat_eq ?_)
  · rw [sign_subtract, sign_subtract, h]
  · rw [toNat_subtract, toNat_subtract, h]

/-! ### Runs of differences -/

/-- What is asked of the difference of two numbers: the digits of their distance in normal form, and the
    sign of their order, which is zero exactly for the digit `0`. -/
structure Difference (m n : Nat) (d : Sign × Magnitude) : Prop where
  normal : Normal d.2.digits
  distance : value d.2.digits = ((m : Int) - n).natAbs
  positive : d.1 = .positive ↔ n < m
  zero : d.1 = .zero ↔ m = n
  negative : d.1 = .negative ↔ m < n
  zero_iff : d.2.digits = [0] ↔ d.1 = .zero

/-- The differences of a run that starts from a number: each subtrahend is taken from the number that
    the step before has left. -/
inductive Differences : Nat → List Digits → List (Sign × Magnitude) → Prop
  | done (m : Nat) : Differences m [] []
  | step {m : Nat} {bs : Digits} {d : Sign × Magnitude} {rest : List Digits}
      {ds : List (Sign × Magnitude)} (first : Difference m (value bs) d)
      (later : Differences (value d.2.digits) rest ds) : Differences m (bs :: rest) (d :: ds)

theorem difference_subtract (as bs : Digits) :
    Difference (value as) (value bs) (subtract as bs) where
  normal := (subtract as bs).2.normal
  distance := by
    have dist := toNat_subtract as bs
    rw [Magnitude.toNat] at dist
    omega
  positive := (sign_subtract_iff as bs).1
  zero := (sign_subtract_iff as bs).2.1
  negative := (sign_subtract_iff as bs).2.2
  zero_iff := by
    rw [sign_subtract_eq_zero_iff, Magnitude.isZero_iff, Magnitude.toNat_eq_zero_iff]

theorem differences_subtractEach (as : Digits) (subtrahends : List Digits) :
    Differences (value as) subtrahends (subtractEach as subtrahends) := by
  induction subtrahends generalizing as with
  | nil => exact .done _
  | cons bs rest ih => exact .step (difference_subtract as bs) (ih (subtract as bs).2.digits)

/-- A run of differences is exact at each step, from whatever digits it starts. A single difference, of
    two lists or of a list and a word, is a run of one step. -/
theorem differences_exact (as : Digits) :
    (∀ subtrahends, Differences (value as) subtrahends (subtractEach as subtrahends)) ∧
      (∀ bs, subtractEach as [bs] = [subtract as bs] ∧
        Difference (value as) (value bs) (subtract as bs)) ∧
      ∀ w : Wide, subtractEach as [w.digits] = [subtractWide as w] ∧
        Difference (value as) w.toNat (subtractWide as w) := by
  refine ⟨differences_subtractEach as, ?_, ?_⟩
  · intro bs
    exact ⟨rfl, difference_subtract as bs⟩
  · intro w
    have word := difference_subtract as w.digits
    rw [Wide.value_digits] at word
    exact ⟨rfl, word⟩

end Multiprecision.Digits
