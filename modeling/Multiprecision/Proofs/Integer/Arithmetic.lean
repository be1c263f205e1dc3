import Multiprecision.Proofs.Digits.Division

/-! What the operations on integers denote, and that they keep integers coherent. Sums, differences and
    products are those of the numbers; quotients are taken toward zero, and remainders have the sign of
    the dividend. -/

namespace Multiprecision

theorem Sign.toInt_inj {s t : Sign} (h : s.toInt = t.toInt) : s = t := by
  cases s <;> cases t <;> simp [Sign.toInt] at h ⊢

theorem Sign.toInt_eq_zero_iff (s : Sign) : s.toInt = 0 ↔ s = .zero := by cases s <;> simp [Sign.toInt]

theorem Sign.eq_zero_or_natAbs_toInt (s : Sign) : s = .zero ∨ s.toInt.natAbs = 1 := by
  cases s <;> simp [Sign.toInt]

theorem Sign.toInt_mul_self (s : Sign) : (s * s).toInt = s.toInt.natAbs := by cases s <;> decide

theorem Sign.mul_eq_zero_iff {s t : Sign} : s * t = .zero ↔ s = .zero ∨ t = .zero := by
  cases s <;> cases t <;> decide

theorem Sign.neg_eq_zero_iff {s : Sign} : -s = .zero ↔ s = .zero := by cases s <;> decide

namespace Magnitude

theorem signed_eq_zero_iff {s : Sign} {m : Magnitude} :
    m.signed s = .zero ↔ m.isZero = true ∨ s = .zero := by
  rw [signed]
  split
  · next z => simp [z]
  · next z => simp [z]

theorem toInt_signed (s : Sign) (m : Magnitude) : (m.signed s).toInt * m.toNat = s.toInt * m.toNat := by
  rw [signed]
  split
  · next z => rw [(isZero_iff m).1 z, Int.natCast_zero, Int.mul_zero, Int.mul_zero]
  · rfl

end Magnitude

namespace Integer

variable {x y : Integer}

/-! ### Coherent integers -/

theorem coherent_iff (x : Integer) : x.Coherent ↔ (x.sign = .zero ↔ x.magnitude.toNat = 0) := by
  rw [Coherent, Magnitude.isZero_iff]

theorem Coherent.toInt_eq_zero_iff (hx : x.Coherent) : x.toInt = 0 ↔ x.magnitude.toNat = 0 := by
  rw [coherent_iff] at hx
  rw [toInt, Int.mul_eq_zero, Sign.toInt_eq_zero_iff, hx, Int.natCast_eq_zero, or_self]

theorem natAbs_toInt (hx : x.Coherent) : x.toInt.natAbs = x.magnitude.toNat := by
  rw [toInt, Int.natAbs_mul, Int.natAbs_natCast]
  rcases x.sign.eq_zero_or_natAbs_toInt with h | h
  · rw [((coherent_iff x).1 hx).1 h, Nat.mul_zero]
  · rw [h, Nat.one_mul]

theorem sign_toInt (hx : x.Coherent) : x.toInt.sign = x.sign.toInt := by
  rw [toInt, Int.sign_mul]
  rw [coherent_iff] at hx
  rcases Nat.eq_zero_or_pos x.magnitude.toNat with z | pos
  · rw [hx.2 z, z]
    rfl
  · have one : (x.magnitude.toNat : Int).sign = 1 := Int.sign_eq_one_of_pos (by omega)
    rw [one, Int.mul_one]
    cases x.sign <;> rfl

/-- A coherent integer is known by the number it denotes. -/
theorem Coherent.ext (hx : x.Coherent) (hy : y.Coherent) (h : x.toInt = y.toInt) : x = y := by
  have magnitude : x.magnitude = y.magnitude :=
    Magnitude.eq_of_toNat_eq (by rw [← natAbs_toInt hx, ← natAbs_toInt hy, h])
  have sign : x.sign = y.sign := Sign.toInt_inj (by rw [← sign_toInt hx, ← sign_toInt hy, h])
  cases x
  cases y
  congr

theorem coherent_zero : zero.Coherent := by decide

theorem coherent_one : one.Coherent := by decide

theorem make_eq (s : Sign) (m : Magnitude) :
    make s m =
      if m.isZero = true then ⟨.zero, m⟩ else if s = .zero then ⟨.positive, m⟩ else ⟨s, m⟩ := by
  cases s <;> rfl

theorem coherent_make (s : Sign) (m : Magnitude) : (make s m).Coherent := by
  rw [make_eq, Coherent]
  split
  · next z => simp [z]
  · next z => split <;> simp [*]

theorem toInt_make {s : Sign} {m : Magnitude} (h : s = .zero → m.toNat = 0) :
    (make s m).toInt = s.toInt * m.toNat := by
  rw [make_eq]
  split
  · next z => rw [toInt, (Magnitude.isZero_iff m).1 z, Int.natCast_zero, Int.mul_zero, Int.mul_zero]
  · next z =>
    have nonzero : s ≠ .zero := by
      intro e
      exact z ((Magnitude.isZero_iff m).2 (h e))
    rw [if_neg nonzero]
    rfl

/-- A magnitude with or without a minus. -/
theorem toInt_ofNegative (negative : Bool) (m : Magnitude) :
    (make (Sign.ofNegative negative) m).toInt = if negative then -(m.toNat : Int) else m.toNat := by
  rw [toInt_make]
  · cases negative with
    | false => exact Int.one_mul _
    | true => simp [Sign.ofNegative, Sign.toInt]
  · cases negative <;> rintro ⟨⟩

theorem coherent_ofInt (n : Int) : (ofInt n).Coherent := coherent_make ..

/-- The integer of a number denotes it. -/
@[simp] theorem toInt_ofInt (n : Int) : (ofInt n).toInt = n := by
  rw [ofInt, toInt_ofNegative, Magnitude.toNat_ofNat]
  simp only [decide_eq_true_eq]
  split <;> omega

@[simp] theorem toInt_zero : zero.toInt = 0 := rfl

@[simp] theorem toInt_one : one.toInt = 1 := rfl

/-! ### Sums and differences -/

theorem addSigned_eq (s : Sign) (a : Magnitude) (t : Sign) (b : Magnitude) :
    addSigned s a t b =
      if t = .zero then ⟨s, a⟩
      else if s = .zero then ⟨t, b⟩
      else if s = t then ⟨s, Digits.add a.digits b.digits⟩
      else ⟨s * (Digits.subtract a.digits b.digits).1, (Digits.subtract a.digits b.digits).2⟩ := by
  cases s <;> cases t <;> rfl

theorem toInt_addSigned (s : Sign) (a : Magnitude) (t : Sign) (b : Magnitude) :
    (addSigned s a t b).toInt = s.toInt * a.toNat + t.toInt * b.toNat := by
  rw [addSigned_eq]
  split
  · next ht => simp [toInt, ht, Sign.toInt]
  · next ht =>
    split
    · next hs => simp [toInt, hs, Sign.toInt]
    · next hs =>
      split
      · next same =>
        rw [toInt, same, Digits.toNat_add, Int.natCast_add, Int.mul_add]
        rfl
      · next opposite =>
        have flip : t.toInt = -s.toInt := by
          cases s <;> cases t <;> simp [Sign.toInt] at hs ht opposite ⊢
        rw [toInt, Sign.toInt_mul, Int.mul_assoc, Digits.toInt_subtract, Int.mul_sub, flip,
          Int.neg_mul, Int.sub_eq_add_neg]
        rfl

theorem coherent_addSigned {s t : Sign} {a b : Magnitude} (ha : (⟨s, a⟩ : Integer).Coherent)
    (hb : (⟨t, b⟩ : Integer).Coherent) : (addSigned s a t b).Coherent := by
  rw [addSigned_eq]
  split
  · exact ha
  · next ht =>
    split
    · exact hb
    · next hs =>
      split
      · rw [coherent_iff] at ha ⊢
        have pos : 0 < a.toNat := Nat.pos_of_ne_zero (mt ha.2 hs)
        constructor
        · intro z
          exact absurd z hs
        · intro z
          rw [Digits.toNat_add] at z
          exact absurd z (Nat.ne_of_gt (Nat.add_pos_left pos _))
      · rw [Coherent, Sign.mul_eq_zero_iff, or_iff_right hs]
        exact Digits.sign_subtract_eq_zero_iff ..

@[simp] theorem toInt_add (x y : Integer) : (x + y).toInt = x.toInt + y.toInt := toInt_addSigned ..

theorem coherent_add (hx : x.Coherent) (hy : y.Coherent) : (x + y).Coherent :=
  coherent_addSigned hx hy

@[simp] theorem toInt_neg (x : Integer) : (-x).toInt = -x.toInt := by
  change (-x.sign).toInt * _ = _
  rw [Sign.toInt_neg, Int.neg_mul]
  rfl

theorem coherent_neg (hx : x.Coherent) : (-x).Coherent := by
  change -x.sign = .zero ↔ _
  rw [Sign.neg_eq_zero_iff]
  exact hx

@[simp] theorem toInt_sub (x y : Integer) : (x - y).toInt = x.toInt - y.toInt := by
  have sum : (x - y).toInt = x.toInt + (-y).toInt := toInt_addSigned ..
  rw [sum, toInt_neg, Int.sub_eq_add_neg]

theorem coherent_sub (hx : x.Coherent) (hy : y.Coherent) : (x - y).Coherent :=
  coherent_addSigned hx (coherent_neg hy)

theorem isZero_iff (hx : x.Coherent) : x.isZero = true ↔ x.toInt = 0 := by
  rw [hx.toInt_eq_zero_iff, ← (coherent_iff x).1 hx, isZero, beq_iff_eq]

theorem toInt_subInLeft (hy : y.Coherent) : (subInLeft x y).toInt = x.toInt - y.toInt := by
  rw [subInLeft]
  split
  · next z => rw [(isZero_iff hy).1 z, Int.sub_zero]
  · exact toInt_sub x y

theorem coherent_subInLeft (hx : x.Coherent) (hy : y.Coherent) : (subInLeft x y).Coherent := by
  rw [subInLeft]
  split
  · exact hx
  · exact coherent_sub hx hy

/-- Whatever storage a difference takes over, it is the difference. -/
theorem toInt_subReusing (r : Reuse) (hx : x.Coherent) (hy : y.Coherent) :
    (subReusing r x y).toInt = x.toInt - y.toInt := by
  cases r with
  | neither => exact toInt_sub x y
  | left => exact toInt_subInLeft hy
  | right => rw [subReusing, toInt_neg, toInt_subInLeft hx, Int.neg_sub]
  | both => exact toInt_subInLeft hy

theorem coherent_subReusing (r : Reuse) (hx : x.Coherent) (hy : y.Coherent) :
    (subReusing r x y).Coherent := by
  cases r with
  | neither => exact coherent_sub hx hy
  | left => exact coherent_subInLeft hx hy
  | right => exact coherent_neg (coherent_subInLeft hy hx)
  | both => exact coherent_subInLeft hx hy

/-! ### Products -/

theorem toInt_of_isZero (h : x.isZero = true) : x.toInt = 0 := by
  rw [toInt, beq_iff_eq.1 h]
  exact Int.zero_mul _

@[simp] theorem toInt_mul (x y : Integer) : (x * y).toInt = x.toInt * y.toInt := by
  change (mul x y).toInt = _
  rw [mul]
  split
  · next z =>
    rcases Bool.or_eq_true_iff.1 z with z | z
    · rw [toInt_of_isZero z, Int.zero_mul, toInt_zero]
    · rw [toInt_of_isZero z, Int.mul_zero, toInt_zero]
  · rw [toInt, Sign.toInt_mul, Digits.toNat_multiply, Int.natCast_mul, toInt, toInt,
      mul_mul_mul_comm]
    rfl

theorem coherent_mul (hx : x.Coherent) (hy : y.Coherent) : (x * y).Coherent := by
  change (mul x y).Coherent
  rw [mul]
  split
  · exact coherent_zero
  · next nonzero =>
    simp only [isZero, Bool.or_eq_true, beq_iff_eq, not_or] at nonzero
    rw [coherent_iff] at hx hy ⊢
    rw [Sign.mul_eq_zero_iff, Digits.toNat_multiply]
    constructor
    · intro z
      exact absurd z (not_or.2 nonzero)
    · intro z
      rcases Nat.mul_eq_zero.1 z with z | z
      · exact Or.inl (hx.2 z)
      · exact Or.inr (hy.2 z)

/-! ### Quotients -/

/-- The integer of a magnitude that has a sign unless it is zero. -/
def signed (s : Sign) (m : Magnitude) : Integer := ⟨m.signed s, m⟩

theorem toInt_signed (s : Sign) (m : Magnitude) : (signed s m).toInt = s.toInt * m.toNat :=
  m.toInt_signed s

theorem coherent_signed {s : Sign} {m : Magnitude} (h : s = .zero → m.toNat = 0) :
    (signed s m).Coherent := by
  rw [Coherent, signed, Magnitude.signed_eq_zero_iff]
  constructor
  · rintro (z | z)
    · exact z
    · exact (Magnitude.isZero_iff m).2 (h z)
  · exact Or.inl

/-- The quotient toward zero, when the divisor is not zero. -/
def quotient (x y : Integer) : Integer :=
  signed (x.sign * y.sign) (Magnitude.ofNat (x.magnitude.toNat / y.magnitude.toNat))

/-- The remainder of the quotient toward zero. -/
def remainder (x y : Integer) : Integer :=
  signed x.sign (Magnitude.ofNat (x.magnitude.toNat % y.magnitude.toNat))

theorem divRemBy_eq (rule : DivisionRule) (x y : Integer) :
    divRemBy rule x y =
      if y.magnitude.toNat = 0 then .error .divisionByZero else .ok (quotient x y, remainder x y) := by
  have divisor : Digits.value y.digits = y.magnitude.toNat := rfl
  rw [divRemBy, Digits.divideSigned, Digits.divide_eq, Digits.quotientRemainder, divisor]
  by_cases z : y.magnitude.toNat = 0
  · rw [if_pos z, if_pos z]
    rfl
  · rw [if_neg z, if_neg z]
    rfl

theorem toInt_quotient (x y : Integer) : (quotient x y).toInt = x.toInt.tdiv y.toInt := by
  rw [quotient, toInt_signed, Magnitude.toNat_ofNat, Sign.toInt_mul, toInt, toInt]
  cases x.sign <;> cases y.sign <;> simp [Sign.toInt]

theorem toInt_remainder (x : Integer) (hy : y.Coherent) :
    (remainder x y).toInt = x.toInt.tmod y.toInt := by
  rw [coherent_iff] at hy
  rw [remainder, toInt_signed, Magnitude.toNat_ofNat, toInt, toInt]
  cases x.sign <;> cases ht : y.sign <;> simp [Sign.toInt, hy.1, ht, ← Int.ofNat_tmod]

theorem coherent_quotient (hx : x.Coherent) (hy : y.Coherent) : (quotient x y).Coherent := by
  rw [coherent_iff] at hx hy
  apply coherent_signed
  intro z
  rw [Magnitude.toNat_ofNat]
  rcases Sign.mul_eq_zero_iff.1 z with z | z
  · rw [hx.1 z, Nat.zero_div]
  · rw [hy.1 z, Nat.div_zero]

theorem coherent_remainder (hx : x.Coherent) (y : Integer) : (remainder x y).Coherent := by
  rw [coherent_iff] at hx
  apply coherent_signed
  intro z
  rw [Magnitude.toNat_ofNat, hx.1 z, Nat.zero_mod]

theorem coherent_divRemBy {rule : DivisionRule} {q r : Integer} (hx : x.Coherent) (hy : y.Coherent)
    (h : divRemBy rule x y = .ok (q, r)) : q.Coherent ∧ r.Coherent := by
  rw [divRemBy_eq] at h
  split at h
  · cases h
  · cases h
    exact ⟨coherent_quotient hx hy, coherent_remainder hx y⟩

/-- A division by an integer of value zero fails, and any other one has the quotient toward zero. -/
theorem divRem_eq (x : Integer) (hy : y.Coherent) :
    divRem x y = if y.toInt = 0 then .error .divisionByZero else .ok (quotient x y, remainder x y) := by
  rw [divRem, divRemBy_eq]
  simp only [hy.toInt_eq_zero_iff]

theorem div_eq (x : Integer) (hy : y.Coherent) :
    div x y = if y.toInt = 0 then .error .divisionByZero else .ok (quotient x y) := by
  rw [div, divRem_eq x hy]
  split <;> rfl

theorem rem_eq (x : Integer) (hy : y.Coherent) :
    rem x y = if y.toInt = 0 then .error .divisionByZero else .ok (remainder x y) := by
  rw [rem, divRem_eq x hy]
  split <;> rfl

theorem div?_eq (x : Integer) (hy : y.Coherent) :
    div? x y = if y.toInt = 0 then none else some (quotient x y) := by
  rw [div?, div_eq x hy]
  split <;> rfl

theorem rem?_eq (x : Integer) (hy : y.Coherent) :
    rem? x y = if y.toInt = 0 then none else some (remainder x y) := by
  rw [rem?, rem_eq x hy]
  split <;> rfl

/-- An operation fails exactly where it divides by zero. -/
theorem operate_eq_error_iff {f : Operation} {e : Error} (x : Integer) (hy : y.Coherent) :
    operate f x y = .error e ↔ (f = .div ∨ f = .rem) ∧ y.toInt = 0 ∧ e = .divisionByZero := by
  cases f with
  | add => simp [operate]
  | sub => simp [operate]
  | mul => simp [operate]
  | div =>
    rw [operate, div_eq x hy]
    split
    · next z => simp [z, eq_comm]
    · next nonzero => simp [nonzero]
  | rem =>
    rw [operate, rem_eq x hy]
    split
    · next z => simp [z, eq_comm]
    · next nonzero => simp [nonzero]

/-- Whatever an operation gives is coherent. -/
theorem coherent_operate {f : Operation} {z : Integer} (hx : x.Coherent) (hy : y.Coherent)
    (h : operate f x y = .ok z) : z.Coherent := by
  cases f with
  | add =>
    cases h
    exact coherent_add hx hy
  | sub =>
    cases h
    exact coherent_sub hx hy
  | mul =>
    cases h
    exact coherent_mul hx hy
  | div =>
    rw [operate, div_eq x hy] at h
    split at h
    · cases h
    · cases h
      exact coherent_quotient hx hy
  | rem =>
    rw [operate, rem_eq x hy] at h
    split at h
    · cases h
    · cases h
      exact coherent_remainder hx y

/-! ### The rest -/

theorem toInt_abs (x : Integer) : x.abs.toInt = x.toInt.natAbs := by
  rw [abs, toInt, toInt, Sign.toInt_mul_self, Int.natAbs_mul, Int.natAbs_natCast, Int.natCast_mul]

theorem coherent_abs (hx : x.Coherent) : x.abs.Coherent := by
  rw [Coherent, abs, Sign.mul_eq_zero_iff, or_self]
  exact hx

theorem toInt_signum (hx : x.Coherent) : x.signum.toInt = x.toInt.sign := by
  rw [sign_toInt hx, signum]
  cases x.sign with
  | negative => rfl
  | zero => rfl
  | positive => rfl

theorem coherent_signum (x : Integer) : x.signum.Coherent := by
  rw [signum]
  cases x.sign with
  | negative => decide
  | zero => decide
  | positive => decide

theorem compare_congr {a b : Nat} {n m : Int} (lt : n < m ↔ a < b) (eq : n = m ↔ a = b) :
    Ord.compare n m = Ord.compare a b := by
  simp only [Ord.compare, compareOfLessAndEq, lt, eq]

/-- Integers of different signs are ordered as their signs are. -/
theorem compare_toInt_of_sign_ne (hx : x.Coherent) (hy : y.Coherent) (differ : x.sign ≠ y.sign) :
    Ord.compare x.toInt y.toInt = Ord.compare x.sign y.sign := by
  rw [coherent_iff] at hx hy
  rw [toInt, toInt]
  generalize x.magnitude.toNat = a at *
  generalize y.magnitude.toNat = b at *
  cases hs : x.sign <;> cases ht : y.sign <;> simp [hs, ht, Sign.toInt] at hx hy differ ⊢
  · exact Int.compare_eq_lt.2 (by omega)
  · exact Int.compare_eq_lt.2 (by omega)
  · exact Int.compare_eq_gt.2 (by omega)
  · exact Int.compare_eq_lt.2 (by omega)
  · exact Int.compare_eq_gt.2 (by omega)
  · exact Int.compare_eq_gt.2 (by omega)

/-- The order of coherent integers is the order of the numbers they denote. -/
theorem compare_eq (hx : x.Coherent) (hy : y.Coherent) :
    compare x y = Ord.compare x.toInt y.toInt := by
  have magnitudes : Magnitude.compare x.magnitude y.magnitude =
    Ord.compare x.magnitude.toNat y.magnitude.toNat := Digits.compare_eq ..
  rw [compare]
  by_cases same : x.sign = y.sign
  · have equal : Ord.compare x.sign y.sign = .eq := by rw [same]; cases y.sign <;> rfl
    rw [equal, magnitudes, isNegative, toInt, toInt, same]
    rw [coherent_iff, same] at hx
    rw [coherent_iff] at hy
    cases ht : y.sign with
    | negative =>
      refine (Nat.compare_swap ..).trans (compare_congr ?_ ?_).symm
      · simp only [Sign.toInt]; omega
      · simp only [Sign.toInt]; omega
    | zero =>
      rw [hx.1 ht, hy.1 ht]
      rfl
    | positive =>
      refine (compare_congr ?_ ?_).symm
      · simp only [Sign.toInt]; omega
      · simp only [Sign.toInt]; omega
  · rw [compare_toInt_of_sign_ne hx hy same]
    generalize x.sign = s at same ⊢
    generalize y.sign = t at same ⊢
    cases s <;> cases t <;> first | rfl | exact absurd rfl same

theorem absSub_eq (hx : x.Coherent) (hy : y.Coherent) :
    absSub x y = if y.toInt < x.toInt then x - y else zero := by
  rw [absSub, compare_eq hx hy]
  rcases Int.lt_trichotomy x.toInt y.toInt with h | h | h
  · rw [Int.compare_eq_lt.2 h, if_neg (by omega)]
  · rw [Int.compare_eq_eq.2 h, if_neg (by omega)]
  · rw [Int.compare_eq_gt.2 h, if_pos h]

theorem toInt_absSub (hx : x.Coherent) (hy : y.Coherent) :
    (absSub x y).toInt = max 0 (x.toInt - y.toInt) := by
  rw [absSub_eq hx hy]
  split
  · rw [toInt_sub]
    omega
  · rw [toInt_zero]
    omega

theorem coherent_absSub (hx : x.Coherent) (hy : y.Coherent) : (absSub x y).Coherent := by
  rw [absSub_eq hx hy]
  split
  · exact coherent_sub hx hy
  · exact coherent_zero

/-! ### Folds -/

theorem toInt_foldl_add (xs : List Integer) (acc : Integer) :
    (xs.foldl (· + ·) acc).toInt = acc.toInt + (xs.map toInt).sum := by
  induction xs generalizing acc with
  | nil => rw [List.foldl_nil, List.map_nil, List.sum_nil, Int.add_zero]
  | cons x xs ih =>
    rw [List.foldl_cons, ih, toInt_add, List.map_cons, List.sum_cons, Int.add_assoc]

theorem toInt_sum (xs : List Integer) : (sum xs).toInt = (xs.map toInt).sum := by
  rw [sum, toInt_foldl_add, toInt_zero, Int.zero_add]

theorem toInt_foldl_mul (xs : List Integer) (acc : Integer) :
    (xs.foldl (· * ·) acc).toInt = acc.toInt * (xs.map toInt).prod := by
  induction xs generalizing acc with
  | nil => rw [List.foldl_nil, List.map_nil, List.prod_nil, Int.mul_one]
  | cons x xs ih =>
    rw [List.foldl_cons, ih, toInt_mul, List.map_cons, List.prod_cons, Int.mul_assoc]

theorem toInt_product (xs : List Integer) : (product xs).toInt = (xs.map toInt).prod := by
  rw [product, toInt_foldl_mul, toInt_one, Int.one_mul]

/-- An operation that keeps integers coherent does so when it is folded over a list. -/
theorem coherent_foldl {f : Integer → Integer → Integer}
    (keeps : ∀ {x y : Integer}, x.Coherent → y.Coherent → (f x y).Coherent) {xs : List Integer}
    {acc : Integer} (hacc : acc.Coherent) (hxs : ∀ x ∈ xs, x.Coherent) :
    (xs.foldl f acc).Coherent := by
  induction xs generalizing acc with
  | nil => exact hacc
  | cons x xs ih =>
    rw [List.forall_mem_cons] at hxs
    exact ih (keeps hacc hxs.1) hxs.2

theorem coherent_sum {xs : List Integer} (hxs : ∀ x ∈ xs, x.Coherent) : (sum xs).Coherent :=
  coherent_foldl coherent_add coherent_zero hxs

theorem coherent_product {xs : List Integer} (hxs : ∀ x ∈ xs, x.Coherent) : (product xs).Coherent :=
  coherent_foldl coherent_mul coherent_one hxs

end Integer

end Multiprecision
