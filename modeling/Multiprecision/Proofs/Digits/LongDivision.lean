import Multiprecision.Proofs.Digits.QuotientDigit
import Multiprecision.Proofs.Digits.Shift
import Multiprecision.Proofs.Wide

/-! Long division gives the quotient and the remainder. The windows keep one invariant: what is left of
    the places above is below the divisor, so that the next window is below the base times it. The shift
    up multiplies both numbers by one power of two and drops out of the quotient. An answer is exact when
    it refuses zero alone and else recomposes; long division by a list or by a word has exact answers. -/

namespace Multiprecision.Digits

/-! ### Quotient and remainder -/

/-- What is asked of a division of `t` by `d`. -/
structure Divided (t d : Nat) (result : Magnitude × Magnitude) : Prop where
  quotient : result.1.toNat = t / d
  remainder : result.2.toNat = t % d

/-- A quotient is known by its remainder, which is below the divisor. -/
theorem Divided.of_law {t d : Nat} {q r : Magnitude} (law : r.toNat + d * q.toNat = t)
    (lt : r.toNat < d) : Divided t d (q, r) := by
  obtain ⟨hq, hr⟩ := (Nat.div_mod_unique (Nat.zero_lt_of_lt lt)).2 ⟨law, lt⟩
  exact ⟨hq.symm, hr.symm⟩

/-- A dividend below the divisor is the remainder. -/
theorem divided_of_lt {as : Digits} {d : Nat} (less : value as < d) :
    Divided (value as) d (Magnitude.zero, Magnitude.ofDigits as) := by
  refine Divided.of_law ?_ ?_
  · rw [Magnitude.toNat_zero, Nat.mul_zero, Nat.add_zero, Magnitude.toNat_ofDigits]
  · rw [Magnitude.toNat_ofDigits]
    exact less

/-- Quotient and remainder of one more place `x` below, where a place has the weight `w`. -/
theorem div_mod_of_window {d q r x m : Nat} (w : Nat) (hq : q = m / d) (hr : r = m % d) :
    (x + w * r) / d + w * q = (x + w * m) / d ∧ (x + w * r) % d = (x + w * m) % d := by
  have split : x + w * m = x + w * r + d * (w * q) := by
    rw [Nat.mul_left_comm, Nat.add_assoc, ← Nat.mul_add, hq, hr, Nat.mod_add_div]
  rcases Nat.eq_zero_or_pos d with rfl | pos
  · simp [hq, hr]
  · rw [split, Nat.add_mul_div_left _ _ pos, Nat.add_mul_mod_self_left]
    exact ⟨rfl, rfl⟩

/-! ### The windows -/

section Windows

variable {low : Digits} {next top : Digit}

/-- A digit below a remainder makes a window below the base times the divisor. -/
theorem value_cons_lt {r : Digits} {d : Nat} (u : Digit) (lt : value r < d) :
    value (u :: r) < d * Digit.base := by
  have digit := Digit.toNat_lt_base u
  have above := Nat.mul_le_mul_left Digit.base lt
  rw [Nat.mul_succ] at above
  rw [value_cons, Nat.mul_comm d]
  omega

/-- The windows give quotient and remainder of the remainder above together with the places below it. -/
theorem divideWindows_spec (pos : 0 < top.toNat) {rem : Digits} (len : rem.length = low.length + 2)
    (lt : value rem < value (low ++ [next, top])) (ds : Digits) :
    value (divideWindows (low ++ [next, top]) top next rem ds).1 =
        (value ds + weight ds.length * value rem) / value (low ++ [next, top]) ∧
      value (divideWindows (low ++ [next, top]) top next rem ds).2 =
        (value ds + weight ds.length * value rem) % value (low ++ [next, top]) ∧
      (divideWindows (low ++ [next, top]) top next rem ds).2.length = low.length + 2 := by
  have dpos : 0 < value (low ++ [next, top]) := by omega
  induction ds with
  | nil => simp [divideWindows, Nat.div_eq_of_lt lt, Nat.mod_eq_of_lt lt, len]
  | cons u ds ih =>
    obtain ⟨hq, hr, hlen⟩ := ih
    have dlen : (low ++ [next, top]).length = low.length + 2 := by simp
    have dlt := value_lt (low ++ [next, top])
    simp only [divideWindows]
    generalize (divideWindows (low ++ [next, top]) top next rem ds).1 = qs at *
    generalize (divideWindows (low ++ [next, top]) top next rem ds).2 = r at *
    have rlt : value r < value (low ++ [next, top]) := by
      rw [hr]
      exact Nat.mod_lt _ dpos
    have wlt : value (u :: r) < value (low ++ [next, top]) * Digit.base := value_cons_lt u rlt
    have wlen : (u :: r).length = low.length + 3 := by simp [hlen]
    have longer : (u :: r).length = (low ++ [next, top]).length + 1 := by omega
    obtain ⟨digit, left⟩ := divideWindow_spec pos wlen wlt
    have leftLen := length_divideWindow top next longer
    generalize (divideWindow (low ++ [next, top]) top next (u :: r)).1 = q at *
    generalize (divideWindow (low ++ [next, top]) top next (u :: r)).2 = w at *
    obtain ⟨dv, md⟩ := div_mod_of_window (x := u.toNat) Digit.base hq hr
    have whole : value (u :: ds) + weight (u :: ds).length * value rem =
        u.toNat + Digit.base * (value ds + weight ds.length * value rem) := by
      rw [value_cons, List.length_cons, weight_succ, Nat.mul_add, Nat.mul_assoc, Nat.add_assoc]
    rw [value_cons] at digit left
    rw [whole]
    refine ⟨?_, ?_, ?_⟩
    · rw [value_cons, digit, dv]
    · -- the window that is left is below the divisor, so its top digit is zero
      have small := Nat.mod_lt (u.toNat + Digit.base * value r) dpos
      rw [value_take, left, Nat.mod_eq_of_lt (Nat.lt_trans small dlt), md]
    · rw [List.length_take, leftLen, wlen, dlen]
      omega

end Windows

/-! ### The shifted numbers -/

theorem exists_leading {ds : Digits} {n : Nat} (len : ds.length = n + 2) :
    ∃ low next top, low.length = n ∧ ds = low ++ [next, top] := by
  obtain ⟨low, high, hlow, two, rfl⟩ := exists_append_of_length len
  obtain ⟨next, top, rfl⟩ := List.length_eq_two.1 two
  exact ⟨low, next, top, hlow, rfl⟩

theorem topThree_leading (low : Digits) (next top : Digit) :
    ∃ below, topThree (low ++ [next, top]) = (top, next, below) := by
  simp only [topThree, List.reverse_append, List.reverse_cons, List.reverse_nil, List.nil_append,
    List.cons_append]
  split <;> simp_all

/-- The number of bits by which long division shifts. -/
def normalShift (ds : Digits) : Nat := Digit.leadingZeros (topThree ds).1

theorem topThree_fst {ds : Digits} {d : Digit} (h : ds.getLast? = some d) : (topThree ds).1 = d := by
  rw [← List.head?_reverse] at h
  rw [topThree]
  split <;> simp_all

/-- The shift sets the top bit of the top place and loses none. -/
theorem normalShift_spec {ds : Digits} (ne : ds ≠ []) (top : ds.getLast? ≠ some 0) :
    normalShift ds < Digit.bits ∧ weight ds.length ≤ 2 * (value ds * twoTo (normalShift ds)) ∧
      value ds * twoTo (normalShift ds) < weight ds.length := by
  obtain ⟨low, d, rfl⟩ := (List.eq_nil_or_concat ds).resolve_left ne
  rw [List.concat_eq_append] at *
  have hd : d ≠ 0 := by simpa using top
  obtain ⟨small, high, fits⟩ := Digit.leadingZeros_spec hd
  rw [normalShift, topThree_fst (d := d) (by simp)]
  generalize Digit.leadingZeros d = s at *
  have lt := value_lt low
  have P := twoTo_pos s
  refine ⟨small, ?_, ?_⟩
  · calc weight (low ++ [d]).length = Digit.base * weight low.length := by
          rw [List.length_append, List.length_singleton, weight_succ]
      _ ≤ 2 * (d.toNat * twoTo s) * weight low.length := Nat.mul_le_mul_right _ high
      _ = 2 * (weight low.length * d.toNat * twoTo s) := by ring
      _ ≤ 2 * (value (low ++ [d]) * twoTo s) := by
        refine Nat.mul_le_mul_left _ (Nat.mul_le_mul_right _ ?_)
        rw [value_append, value_cons, value_nil, Nat.mul_zero, Nat.add_zero]
        exact Nat.le_add_left ..
  · calc value (low ++ [d]) * twoTo s < (d.toNat + 1) * weight low.length * twoTo s := by
          refine Nat.mul_lt_mul_of_pos_right ?_ P
          rw [value_append, value_cons, value_nil, Nat.mul_zero, Nat.add_zero, Nat.succ_mul,
            Nat.mul_comm]
          omega
      _ = (d.toNat + 1) * twoTo s * weight low.length := by ring
      _ ≤ Digit.base * weight low.length := Nat.mul_le_mul_right _ fits
      _ = weight (low ++ [d]).length := by
        rw [List.length_append, List.length_singleton, weight_succ]

/-! ### The normalized division -/

/-- The dividend shifted up, with one place more. -/
def normalDividend (as bs : Digits) : Digits := resize (shiftUp (normalShift bs) as) (as.length + 1)

/-- The number of quotient digits of a normalized division. -/
def quotientPlaces (as bs : Digits) : Nat := as.length - bs.length + 1

@[simp] theorem length_normalDividend (as bs : Digits) :
    (normalDividend as bs).length = as.length + 1 := length_resize ..

theorem divideNormal_eq {as bs low : Digits} {next top : Digit}
    (eq : shiftUp (normalShift bs) bs = low ++ [next, top]) :
    divideNormal as bs =
      ((divideWindows (low ++ [next, top]) top next
          ((normalDividend as bs).drop (quotientPlaces as bs))
          ((normalDividend as bs).take (quotientPlaces as bs))).1,
        shiftDown (normalShift bs) (divideWindows (low ++ [next, top]) top next
          ((normalDividend as bs).drop (quotientPlaces as bs))
          ((normalDividend as bs).take (quotientPlaces as bs))).2) := by
  obtain ⟨below, three⟩ := topThree_leading low next top
  rw [← eq] at three ⊢
  rw [normalShift] at three
  simp only [divideNormal, three]
  rfl

section Normal

variable {as bs : Digits} (ne : bs ≠ []) (top : bs.getLast? ≠ some 0)

include ne top

theorem value_normalDividend (as : Digits) :
    value (normalDividend as bs) = value as * twoTo (normalShift bs) := by
  have small := (normalShift_spec ne top).1
  rw [normalDividend, value_resize, value_shiftUp small, Nat.mod_eq_of_lt]
  have fits : twoTo (normalShift bs) ≤ Digit.base := by
    rw [← twoTo_mul_twoTo (Nat.le_of_lt small)]
    exact Nat.le_mul_of_pos_right _ (twoTo_pos _)
  rw [weight_succ, Nat.mul_comm Digit.base]
  exact Nat.mul_lt_mul_of_lt_of_le (value_lt as) fits base_pos

/-- The divisor keeps its length, and the top bit of its top digit is set. -/
theorem exists_normalDivisor (two : 2 ≤ bs.length) :
    ∃ low next lead, low.length + 2 = bs.length ∧ Digit.base ≤ 2 * lead.toNat ∧
      shiftUp (normalShift bs) bs = low ++ [next, lead] := by
  obtain ⟨small, high, fits⟩ := normalShift_spec ne top
  have len := length_shiftUp small fits
  have two' : (shiftUp (normalShift bs) bs).length = bs.length - 2 + 2 := by omega
  obtain ⟨low, next, lead, hlow, eq⟩ := exists_leading two'
  refine ⟨low, next, lead, by omega, ?_, eq⟩
  rw [base_le_two_mul_iff (low ++ [next]), List.append_assoc, List.singleton_append, ← eq, len,
    value_shiftUp small]
  exact high

/-- The part of the dividend above the quotient is below the divisor. -/
theorem value_drop_normalDividend_lt (len : bs.length ≤ as.length) :
    value ((normalDividend as bs).drop (quotientPlaces as bs)) <
      value bs * twoTo (normalShift bs) := by
  have places : as.length = quotientPlaces as bs + (bs.length - 1) := by
    have := List.length_pos_iff.2 ne
    rw [quotientPlaces]
    omega
  rw [value_drop, value_normalDividend ne top]
  refine Nat.div_lt_of_lt_mul ?_
  calc value as * twoTo (normalShift bs) < weight as.length * twoTo (normalShift bs) :=
        Nat.mul_lt_mul_of_pos_right (value_lt as) (twoTo_pos _)
    _ = weight (quotientPlaces as bs) * (weight (bs.length - 1) * twoTo (normalShift bs)) := by
        rw [places, weight_add, Nat.mul_assoc]
    _ ≤ weight (quotientPlaces as bs) * (value bs * twoTo (normalShift bs)) :=
        Nat.mul_le_mul_left _ (Nat.mul_le_mul_right _ (weight_le_value ne top))

/-- Quotient and remainder of a list that is not shorter than the divisor. -/
theorem divideNormal_spec (two : 2 ≤ bs.length) (len : bs.length ≤ as.length) :
    value (divideNormal as bs).1 = value as / value bs ∧
      value (divideNormal as bs).2 = value as % value bs := by
  have small := (normalShift_spec ne top).1
  have P := twoTo_pos (normalShift bs)
  have val := value_shiftUp small bs
  have places : quotientPlaces as bs = as.length - bs.length + 1 := rfl
  obtain ⟨low, next, lead, hlow, high, eq⟩ := exists_normalDivisor ne top two
  have pos : 0 < lead.toNat := Nat.pos_of_mul_pos_left (Nat.lt_of_lt_of_le base_pos high)
  have start := value_drop_normalDividend_lt ne top len
  rw [eq] at val
  rw [← val] at start
  have run := divideWindows_spec pos (by rw [List.length_drop, length_normalDividend]; omega) start
    ((normalDividend as bs).take (quotientPlaces as bs))
  rw [List.length_take, length_normalDividend, Nat.min_eq_left (by omega), ← value_split,
    value_normalDividend ne top, val, Nat.mul_div_mul_right _ _ P, Nat.mul_mod_mul_right] at run
  rw [divideNormal_eq eq]
  refine ⟨run.1, ?_⟩
  rw [value_shiftDown small, run.2.1, Nat.mul_div_cancel _ P]

end Normal

/-! ### Any two lists -/

/-- Long division gives the quotient and the remainder. -/
theorem longDivideNonzero_spec (as : Digits) {bs : Digits} (nonzero : value bs ≠ 0) :
    Divided (value as) (value bs) (longDivideNonzero as bs) := by
  have top := getLast?_trim bs
  have hb := value_trim bs
  rw [longDivideNonzero, ← hb, ← value_trim as]
  rw [← hb] at nonzero
  generalize trim bs = bs at *
  generalize trim as = as at *
  cases bs with
  | nil => exact absurd rfl nonzero
  | cons b bs =>
    dsimp only
    split
    · next less =>
      rw [compare_eq_lt_iff] at less
      exact divided_of_lt less
    · next notLess =>
      rw [compare_eq_lt_iff] at notLess
      cases bs with
      | nil =>
        have single : value [b] = b.toNat := by simp
        have pos : 0 < b.toNat := by
          apply Nat.pos_of_ne_zero
          intro z
          exact nonzero (single.trans z)
        obtain ⟨law, lt⟩ := divideByDigit_law pos as
        rw [Nat.add_comm, Nat.mul_comm] at law
        rw [single]
        refine Divided.of_law ?_ ?_
        · rw [Magnitude.toNat_ofDigits, Magnitude.toNat_ofDigits, value_cons, value_nil,
            Nat.mul_zero, Nat.add_zero, law]
        · simpa using lt
      | cons c cs =>
        have len := (length_le_iff top as.length).2
          (Nat.lt_of_le_of_lt (Nat.le_of_not_lt notLess) (value_lt as))
        have run := divideNormal_spec (by simp) top (by simp) len
        exact ⟨(Magnitude.toNat_ofDigits _).trans run.1, (Magnitude.toNat_ofDigits _).trans run.2⟩

/-! ### Answers -/

/-- What is asked of the answer to a division of `t` by `d`: it refuses zero and nothing else, and else
    quotient and remainder, in normal form, make up `t` with a remainder below `d`. -/
structure Answers (t d : Nat) (answer : Except Error (Magnitude × Magnitude)) : Prop where
  refuses : answer = .error .divisionByZero ↔ d = 0
  divides : d ≠ 0 → ∃ q r : Magnitude, answer = .ok (q, r) ∧ Normal q.digits ∧ Normal r.digits ∧
    t = value q.digits * d + value r.digits ∧ value r.digits < d

theorem Divided.law {t d : Nat} {q r : Magnitude} (h : Divided t d (q, r)) (nonzero : d ≠ 0) :
    t = q.toNat * d + r.toNat ∧ r.toNat < d := by
  rw [h.quotient, h.remainder, Nat.div_add_mod']
  exact ⟨rfl, Nat.mod_lt t (Nat.pos_of_ne_zero nonzero)⟩

/-- An answer that fails for zero, and else divides. -/
theorem answers_of_divided {t d : Nat} {answer : Except Error (Magnitude × Magnitude)}
    {x : Magnitude × Magnitude} (zero : d = 0 → answer = .error .divisionByZero)
    (nonzero : d ≠ 0 → answer = .ok x ∧ Divided t d x) : Answers t d answer where
  refuses := by
    refine ⟨?_, zero⟩
    intro refused
    apply Classical.byContradiction
    intro h
    rw [(nonzero h).1] at refused
    cases refused
  divides := by
    intro h
    obtain ⟨eq, divided⟩ := nonzero h
    exact ⟨x.1, x.2, eq, x.1.normal, x.2.normal, divided.law h⟩

theorem answers_longDivide (as bs : Digits) : Answers (value as) (value bs) (longDivide as bs) := by
  refine answers_of_divided (x := longDivideNonzero as bs) ?_ ?_
  · intro zero
    rw [longDivide, if_pos ((isZero_iff bs).2 zero)]
  · intro nonzero
    rw [longDivide, if_neg (mt (isZero_iff bs).1 nonzero)]
    exact ⟨rfl, longDivideNonzero_spec as nonzero⟩

theorem answers_longDivideWide (as : Digits) (w : Wide) :
    Answers (value as) w.toNat (longDivideWide as w) := by
  have zero_iff : w = 0 ↔ w.toNat = 0 := BitVec.toNat_inj.symm
  refine answers_of_divided (x := longDivideNonzero as w.digits) ?_ ?_
  · intro zero
    rw [longDivideWide, if_pos (zero_iff.2 zero)]
  · intro nonzero
    have spec : Divided (value as) (value w.digits) (longDivideNonzero as w.digits) :=
      longDivideNonzero_spec as (by rwa [Wide.value_digits])
    rw [Wide.value_digits] at spec
    rw [longDivideWide, if_neg (mt zero_iff.1 nonzero)]
    exact ⟨rfl, spec⟩

/-- Long division is exact for any two lists, whatever zeros they carry, and for a list and a word. It
    refuses the lists of zeros alone. -/
theorem long_division_exact (as : Digits) :
    (∀ bs : Digits, Answers (value as) (value bs) (longDivide as bs) ∧
      (longDivide as bs = .error .divisionByZero ↔ ∀ d ∈ bs, d = 0)) ∧
      ∀ w : Wide, Answers (value as) w.toNat (longDivideWide as w) := by
  refine ⟨?_, answers_longDivideWide as⟩
  intro bs
  have answers := answers_longDivide as bs
  exact ⟨answers, answers.refuses.trans (value_eq_zero_iff bs)⟩

/-- A division whose estimate stays one too large until the divisor is added back. -/
theorem long_division_exact_added_back :
    value [1, 0, 2305843009213693952] ≠ 0 ∧ ∃ q r : Magnitude,
      longDivide [3, 0, 9223372036854775808] [1, 0, 2305843009213693952] = .ok (q, r) ∧
        value [3, 0, 9223372036854775808] =
          value q.digits * value [1, 0, 2305843009213693952] + value r.digits ∧
        value r.digits < value [1, 0, 2305843009213693952] := by
  have nonzero : value [1, 0, 2305843009213693952] ≠ 0 := by decide
  obtain ⟨lists, -⟩ := long_division_exact [3, 0, 9223372036854775808]
  obtain ⟨q, r, eq, -, -, law, lt⟩ := (lists [1, 0, 2305843009213693952]).1.divides nonzero
  exact ⟨nonzero, q, r, eq, law, lt⟩

end Multiprecision.Digits
