import Multiprecision.Wide

/-! The difference of two lists of digits, as a sign and a magnitude. The borrow runs up both lists;
    above the subtrahend it stops at the first digit that can give it. When a borrow is left at the
    top the digits are the complement of the true difference, and one more pass negates them. -/

namespace Multiprecision.Digits

/-- The digits minus a borrow, and the borrow left at the top. -/
def borrowThrough : Digits → Bool → Digits × Bool
  | ds, false => (ds, false)
  | [], true => ([], true)
  | d :: ds, true =>
    let (x, b) := Digit.subBorrow d 0 true
    let (xs, c) := borrowThrough ds b
    (x :: xs, c)

/-- The digits of `as - bs - borrow`, as many as the longer list has, and the borrow left at the top. -/
def subBorrowing : Digits → Digits → Bool → Digits × Bool
  | as, [], borrow => borrowThrough as borrow
  | [], b :: bs, borrow =>
    let (x, c) := Digit.subBorrow 0 b borrow
    let (xs, t) := subBorrowing [] bs c
    (x :: xs, t)
  | a :: as, b :: bs, borrow =>
    let (x, c) := Digit.subBorrow a b borrow
    let (xs, t) := subBorrowing as bs c
    (x :: xs, t)

/-- Every digit inverted, plus a carry; what is carried out of the top is lost. -/
def complement : Digits → Bool → Digits
  | [], _ => []
  | d :: ds, carry =>
    let (x, c) := Digit.addCarry (~~~d) 0 carry
    x :: complement ds c

/-- The sign and the magnitude of `as - bs`. -/
def subtract (as bs : Digits) : Sign × Magnitude :=
  match subBorrowing as bs false with
  | (ds, true) =>
    let m := Magnitude.ofDigits (complement ds true)
    (m.signed .negative, m)
  | (ds, false) =>
    let m := Magnitude.ofDigits ds
    (m.signed .positive, m)

/-- The sign and the magnitude of `as - w`, for a word `w`. -/
def subtractWide (as : Digits) (w : Wide) : Sign × Magnitude := subtract as w.digits

/-- The differences of a run: each subtrahend is taken from the magnitude left before it. -/
def subtractEach : Digits → List Digits → List (Sign × Magnitude)
  | _, [] => []
  | as, bs :: rest =>
    let d := subtract as bs
    d :: subtractEach d.2.digits rest

/-! ### What the passes denote -/

theorem length_borrowThrough (ds : Digits) (b : Bool) :
    (borrowThrough ds b).1.length = ds.length := by
  fun_induction borrowThrough ds b <;> simp_all

theorem borrowThrough_law (ds : Digits) (b : Bool) :
    value (borrowThrough ds b).1 + b.toNat =
      value ds + weight ds.length * (borrowThrough ds b).2.toNat := by
  fun_induction borrowThrough ds b with
  | case1 => simp
  | case2 => simp
  | case3 d ds x b h xs c hr ih =>
    have law := Digit.subBorrow_law d 0 true
    rw [h] at law
    rw [hr] at ih
    simp only [value_cons, List.length_cons, weight_succ, Nat.mul_assoc]
    generalize weight ds.length * c.toNat = t at ih ⊢
    simp only [Bool.toNat_true, UInt64.toNat_zero, Digit.base] at law ih ⊢
    omega

theorem length_subBorrowing (as bs : Digits) (b : Bool) :
    (subBorrowing as bs b).1.length = max as.length bs.length := by
  fun_induction subBorrowing as bs b with
  | case1 as b => simp [length_borrowThrough]
  | case2 b bs borrow x c h xs t hr ih =>
    rw [hr] at ih
    simp only [List.length_cons, ih, List.length_nil, Nat.zero_max]
  | case3 a as b bs borrow x c h xs t hr ih =>
    rw [hr] at ih
    simp only [List.length_cons, ih, Nat.add_max_add_right]

/-- The difference digits, the subtrahend and the borrow recompose to the minuend. -/
theorem subBorrowing_law (as bs : Digits) (b : Bool) :
    value (subBorrowing as bs b).1 + value bs + b.toNat =
      value as + weight (max as.length bs.length) * (subBorrowing as bs b).2.toNat := by
  fun_induction subBorrowing as bs b with
  | case1 as b => simpa using borrowThrough_law as b
  | case2 b bs borrow x c h xs t hr ih =>
    have law := Digit.subBorrow_law 0 b borrow
    rw [h] at law
    rw [hr] at ih
    simp only [value_cons, value_nil, List.length_cons, List.length_nil, Nat.zero_max, weight_succ,
      Nat.mul_assoc] at ih ⊢
    generalize weight bs.length * t.toNat = t at ih ⊢
    simp only [UInt64.toNat_zero, Digit.base] at law ih ⊢
    omega
  | case3 a as b bs borrow x c h xs t hr ih =>
    have law := Digit.subBorrow_law a b borrow
    rw [h] at law
    rw [hr] at ih
    simp only [value_cons, List.length_cons, Nat.add_max_add_right, weight_succ, Nat.mul_assoc]
    generalize weight (max as.length bs.length) * t.toNat = t at ih ⊢
    simp only [Digit.base] at law ih ⊢
    omega

@[simp] theorem length_complement (ds : Digits) (c : Bool) :
    (complement ds c).length = ds.length := by
  fun_induction complement ds c <;> simp_all

/-- A list and its complement fill every place, up to one carry out of the top. -/
theorem complement_law (ds : Digits) (c : Bool) :
    ∃ t : Bool, value (complement ds c) + value ds + 1 + weight ds.length * t.toNat =
      weight ds.length + c.toNat := by
  fun_induction complement ds c with
  | case1 c => exact ⟨c, by cases c <;> rfl⟩
  | case2 d ds carry x c h ih =>
    obtain ⟨t, ih⟩ := ih
    have law := Digit.addCarry_law (~~~d) 0 carry
    have inv : (~~~d).toNat + d.toNat + 1 = 2 ^ 64 := by
      have hd := d.toNat_lt
      rw [UInt64.toNat_not]
      simp only [UInt64.size]
      omega
    rw [h] at law
    refine ⟨t, ?_⟩
    simp only [value_cons, List.length_cons, weight_succ, Nat.mul_assoc]
    generalize weight ds.length * t.toNat = u at ih ⊢
    generalize weight ds.length = p at ih ⊢
    simp only [UInt64.toNat_zero, Digit.base] at law ih ⊢
    omega

/-- A borrow is left at the top exactly when the subtrahend is larger. -/
theorem subBorrowing_snd (as bs : Digits) :
    (subBorrowing as bs false).2 = decide (value as < value bs) := by
  have law := subBorrowing_law as bs false
  have lt := value_lt (subBorrowing as bs false).1
  have hb := value_lt bs
  have mono : weight bs.length ≤ weight (max as.length bs.length) :=
    weight_mono (Nat.le_max_right ..)
  rw [length_subBorrowing] at lt
  generalize weight (max as.length bs.length) = p at *
  cases ht : (subBorrowing as bs false).2 <;> simp [ht] at law ⊢ <;> omega

/-- The magnitude of a difference is the distance of the two numbers. -/
theorem toNat_subtract (as bs : Digits) :
    (subtract as bs).2.toNat = (value as - value bs) + (value bs - value as) := by
  have law := subBorrowing_law as bs false
  have top := subBorrowing_snd as bs
  have len := length_subBorrowing as bs false
  have lt := value_lt bs
  have mono : weight bs.length ≤ weight (max as.length bs.length) :=
    weight_mono (Nat.le_max_right ..)
  unfold subtract
  split
  · next ds h =>
    obtain ⟨t, comp⟩ := complement_law ds true
    rw [h] at law top len
    replace top := of_decide_eq_true top.symm
    rw [len] at comp
    simp only [Magnitude.toNat_ofDigits]
    generalize weight (max as.length bs.length) = p at *
    cases t <;> simp only [Bool.toNat_true, Bool.toNat_false, Nat.mul_one, Nat.mul_zero,
      Nat.add_zero] at law comp <;> omega
  · next ds h =>
    rw [h] at law top
    replace top := of_decide_eq_false top.symm
    simp only [Bool.toNat_false, Nat.mul_zero, Nat.add_zero] at law
    simp only [Magnitude.toNat_ofDigits]
    omega

/-- The sign of a difference is the order of the two numbers. -/
theorem sign_subtract (as bs : Digits) :
    (subtract as bs).1 = if value as < value bs then .negative
      else if value as = value bs then .zero else .positive := by
  have top := subBorrowing_snd as bs
  have val := toNat_subtract as bs
  unfold subtract at val ⊢
  split <;> next ds h =>
    rw [h] at top val
    simp only [Magnitude.signed] at val ⊢
    split
    · next z => rw [Magnitude.isZero_iff] at z; simp at top; grind
    · next z => rw [Magnitude.isZero_iff] at z; simp at top; grind

/-- A negative difference is smaller than what was subtracted, unless nothing was subtracted from. -/
theorem subtract_lt {as bs : Digits} (pos : 0 < value as) (h : (subtract as bs).1 = .negative) :
    (subtract as bs).2.toNat < value bs := by
  rw [sign_subtract] at h
  rw [toNat_subtract]
  split at h
  · omega
  · split at h <;> simp at h

end Multiprecision.Digits
