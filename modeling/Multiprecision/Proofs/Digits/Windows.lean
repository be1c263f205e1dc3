import Multiprecision.Proofs.Digits.LongDivision

/-! The steps of long division, one for each place from the highest down. What a step must give is said of
    its window alone: an estimate that is found in few safe tests and is at most one too large, a borrow
    exactly when it is, and the remainder of the window once the borrow is repaired. The window of every
    place is below the base times the divisor, since what is left of the places above is below the divisor. -/

namespace Multiprecision.Digits

/-! ### The refinement of an estimate -/

/-- The test that rejects an estimate `q` with the remainder `r`. -/
def Rejected (next below : Digit) (q r : Nat) : Prop :=
  Digit.base ≤ q ∨ Digit.join (Digit.low r) below < q * next.toNat

/-- A test that loses nothing: the remainder is one digit, and the product, which is formed only for an
    estimate of one digit, is a number of two digits. -/
structure ExactTest (next : Digit) (q r : Nat) : Prop where
  remainder : (Digit.low r).toNat = r
  product : q < Digit.base → q * next.toNat < twoTo 128

/-- The runs of the refinement from an estimate `q` and its remainder `r` to the estimate that is kept,
    with the number of steps down. -/
inductive Refinement (top next below : Digit) : Nat → Nat → Nat → Nat → Prop
  | kept {q r : Nat} (test : ExactTest next q r) (accepted : ¬Rejected next below q r) :
      Refinement top next below q r 0 q
  | stopped {q r : Nat} (test : ExactTest next (q + 1) r) (rejected : Rejected next below (q + 1) r)
      (large : Digit.base ≤ r + top.toNat) : Refinement top next below (q + 1) r 1 q
  | again {q r steps e : Nat} (test : ExactTest next (q + 1) r)
      (rejected : Rejected next below (q + 1) r) (small : r + top.toNat < Digit.base)
      (rest : Refinement top next below q (r + top.toNat) steps e) :
      Refinement top next below (q + 1) r (steps + 1) e

theorem exactTest (next : Digit) (q : Nat) {r : Nat} (small : r < Digit.base) : ExactTest next q r where
  remainder := Digit.toNat_low_of_lt small
  product := fun digit => Nat.lt_of_lt_of_eq (Nat.mul_lt_mul'' digit (Digit.toNat_lt_base next)) (by decide)

/-- The refinement of an estimate with a remainder of one digit ends. The remainder grows by the top digit
    with each step, and is one digit before each. -/
theorem exists_refinement (top next below : Digit) (q : Nat) {r : Nat} (small : r < Digit.base) :
    ∃ steps, Refinement top next below q r steps (refineEstimate top next below q r) ∧
      r + steps * top.toNat < Digit.base + top.toNat := by
  induction q generalizing r with
  | zero =>
    refine ⟨0, .kept (exactTest next 0 small) ?_, by omega⟩
    rintro (large | less)
    · exact absurd large (by decide)
    · rw [Nat.zero_mul] at less
      exact Nat.not_lt_zero _ less
  | succ q ih =>
    have test := exactTest next (q + 1) small
    rw [refineEstimate]
    split
    · next rejected =>
      split
      · next large => exact ⟨1, .stopped test rejected large, by omega⟩
      · next go =>
        have go := Nat.lt_of_not_le go
        obtain ⟨steps, rest, bound⟩ := ih go
        refine ⟨steps + 1, .again test rejected go rest, ?_⟩
        rw [Nat.succ_mul]
        omega
    · next accepted => exact ⟨0, .kept test accepted, by omega⟩

/-- When the top bit of the top digit is set the refinement takes at most two steps. -/
theorem exists_refinement_le_two {top : Digit} (high : Digit.base ≤ 2 * top.toNat) (next below : Digit)
    (q : Nat) {r : Nat} (small : r < Digit.base) :
    ∃ steps ≤ 2, Refinement top next below q r steps (refineEstimate top next below q r) := by
  obtain ⟨steps, run, bound⟩ := exists_refinement top next below q small
  refine ⟨steps, Nat.le_of_lt_succ (Nat.lt_of_mul_lt_mul_right (a := top.toNat) ?_), run⟩
  omega

/-! ### One window -/

/-- The window minus the estimated multiple of the divisor, and the borrow left at the top. -/
def subtractEstimate (divisor : Digits) (top next : Digit) (ws : Digits) : Digits × Bool :=
  subtractMultiple (Digit.low (estimate top next ws)) divisor ws 0 false

/-- A step of long division that loses nothing, where `top` and `next` lead the divisor. -/
structure ExactWindow (divisor : Digits) (top next : Digit) (ws : Digits) : Prop where
  longer : ws.length = divisor.length + 1
  below : value ws < value divisor * Digit.base
  /-- The refinement starts from the quotient of the two top digits of the window, and ends. -/
  refined : ∃ steps ≤ 2, Refinement top next (topThree ws).2.2
    (Digit.join (topThree ws).1 (topThree ws).2.1 / top.toNat)
    (Digit.join (topThree ws).1 (topThree ws).2.1 % top.toNat) steps (estimate top next ws)
  digit : (Digit.low (estimate top next ws)).toNat = estimate top next ws
  least : value ws / value divisor ≤ estimate top next ws
  most : estimate top next ws ≤ value ws / value divisor + 1
  borrow : (subtractEstimate divisor top next ws).2 = true ↔
    estimate top next ws = value ws / value divisor + 1
  /-- Without a borrow the estimate is the quotient digit. -/
  kept : (subtractEstimate divisor top next ws).2 = false →
    divideWindow divisor top next ws =
      (Digit.low (estimate top next ws), (subtractEstimate divisor top next ws).1)
  /-- With a borrow the estimate is not zero, and the divisor is added back once. -/
  addedBack : (subtractEstimate divisor top next ws).2 = true →
    1 ≤ estimate top next ws ∧ divideWindow divisor top next ws =
      (Digit.low (estimate top next ws) - 1,
        addBack divisor (subtractEstimate divisor top next ws).1 false)
  quotient : (divideWindow divisor top next ws).1.toNat = value ws / value divisor
  left : value (divideWindow divisor top next ws).2 = value ws % value divisor
  cleared : (divideWindow divisor top next ws).2[divisor.length]? = some 0

/-- A multiple by the quotient or by one more is too large exactly when it is by one more. -/
theorem lt_mul_iff {w d q : Nat} (pos : 0 < d) (least : w / d ≤ q) (most : q ≤ w / d + 1) :
    w < q * d ↔ q = w / d + 1 := by
  rw [← Nat.div_lt_iff_lt_mul pos]
  omega

/-- Digits that denote less than the weight of their top place have a zero there. -/
theorem getElem?_eq_zero {ds : Digits} {n : Nat} (length : ds.length = n + 1) (lt : value ds < weight n) :
    ds[n]? = some 0 := by
  have last : ds.getLast? = ds[n]? := by rw [List.getLast?_eq_getElem?, length, Nat.add_sub_cancel]
  rw [← last]
  apply Classical.byContradiction
  intro top
  have large := weight_le_value (List.ne_nil_of_length_eq_add_one length) top
  rw [length, Nat.add_sub_cancel] at large
  exact Nat.not_le_of_lt lt large

/-- The two top digits of the window, divided by the top digit of the divisor, are refined. -/
theorem exists_refinement_estimate {top : Digit} (high : Digit.base ≤ 2 * top.toNat) (next : Digit)
    (ws : Digits) :
    ∃ steps ≤ 2, Refinement top next (topThree ws).2.2
      (Digit.join (topThree ws).1 (topThree ws).2.1 / top.toNat)
      (Digit.join (topThree ws).1 (topThree ws).2.1 % top.toNat) steps (estimate top next ws) := by
  have pos : 0 < top.toNat := Nat.pos_of_mul_pos_left (Nat.lt_of_lt_of_le base_pos high)
  exact exists_refinement_le_two high next _ _
    (Nat.lt_trans (Nat.mod_lt _ pos) (Digit.toNat_lt_base top))

/-- A window below the base times a divisor whose top bit is set makes an exact step. -/
theorem exactWindow {low : Digits} {next top : Digit} (high : Digit.base ≤ 2 * top.toNat) {ws : Digits}
    (len : ws.length = low.length + 3) (lt : value ws < value (low ++ [next, top]) * Digit.base) :
    ExactWindow (low ++ [next, top]) top next ws := by
  have pos : 0 < top.toNat := Nat.pos_of_mul_pos_left (Nat.lt_of_lt_of_le base_pos high)
  have longer : ws.length = (low ++ [next, top]).length + 1 := by simp [len]
  have dpos : 0 < value (low ++ [next, top]) := Nat.pos_of_mul_pos_right (Nat.zero_lt_of_lt lt)
  obtain ⟨small, least, most⟩ := estimate_spec pos len lt
  obtain ⟨quotient, left⟩ := divideWindow_spec pos len lt
  have digit := Digit.toNat_low_of_lt small
  have step := divideWindow_eq top next longer
  have borrow := subtractMultiple_snd (Digit.low (estimate top next ws)) longer
  rw [digit] at step borrow
  refine ⟨longer, lt, exists_refinement_estimate high next ws, digit, least, most, ?_, ?_, ?_, quotient,
    left, ?_⟩
  · rw [subtractEstimate, borrow, decide_eq_true_iff]
    exact lt_mul_iff dpos least most
  · intro none
    rw [subtractEstimate, borrow] at none
    rw [step, if_neg (of_decide_eq_false none), subtractEstimate]
  · intro some
    rw [subtractEstimate, borrow] at some
    have tooLarge := of_decide_eq_true some
    refine ⟨?_, by rw [step, if_pos tooLarge, subtractEstimate]⟩
    rw [lt_mul_iff dpos least most] at tooLarge
    omega
  · -- what is left is below the divisor, which has one place less
    have leftLength := (length_divideWindow top next longer).trans longer
    apply getElem?_eq_zero leftLength
    rw [left]
    exact Nat.lt_trans (Nat.mod_lt _ dpos) (value_lt _)

/-! ### The windows of a division -/

/-- The divisor shifted up until its top bit is set. -/
def normalDivisor (bs : Digits) : Digits := shiftUp (normalShift bs) bs

/-- The two top digits of the shifted divisor, the highest first. -/
def leading (bs : Digits) : Digit × Digit :=
  ((topThree (normalDivisor bs)).1, (topThree (normalDivisor bs)).2.1)

/-- The quotient digits of the places from `j` on, and what is left of the dividend there. -/
def dividedFrom (as bs : Digits) (j : Nat) : Digits × Digits :=
  divideWindows (normalDivisor bs) (leading bs).1 (leading bs).2
    ((normalDividend as bs).drop (quotientPlaces as bs))
    (((normalDividend as bs).take (quotientPlaces as bs)).drop j)

/-- The window of the place `j`: its digit below what is left of the places above it. -/
def windowAt (as bs : Digits) (j : Nat) : Digits :=
  (normalDividend as bs).getD j 0 :: (dividedFrom as bs (j + 1)).2

/-- The quotient digit of the place `j`, and its window once it is divided. -/
def stepAt (as bs : Digits) (j : Nat) : Digit × Digits :=
  divideWindow (normalDivisor bs) (leading bs).1 (leading bs).2 (windowAt as bs j)

/-- The steps of a long division, from the digits above the quotient to quotient and remainder, and each of
    them exact. -/
structure ExactWindows (as bs : Digits) : Prop where
  divisor : (normalDivisor bs).length = bs.length
  dividend : (normalDividend as bs).length = quotientPlaces as bs + bs.length
  /-- Both numbers are shifted alike, so that the top bit of the divisor is set. -/
  shifted : value (normalDivisor bs) = value bs * twoTo (normalShift bs) ∧
    value (normalDividend as bs) = value as * twoTo (normalShift bs) ∧
      Digit.base ≤ 2 * (leading bs).1.toNat
  inBounds : ∀ j < quotientPlaces as bs, j + bs.length < (normalDividend as bs).length
  first : dividedFrom as bs (quotientPlaces as bs) =
    ([], (normalDividend as bs).drop (quotientPlaces as bs))
  next : ∀ j < quotientPlaces as bs, dividedFrom as bs j =
    ((stepAt as bs j).1 :: (dividedFrom as bs (j + 1)).1, (stepAt as bs j).2.take bs.length)
  last : divideNormal as bs =
    ((dividedFrom as bs 0).1, shiftDown (normalShift bs) (dividedFrom as bs 0).2)
  exact : ∀ j < quotientPlaces as bs,
    ExactWindow (normalDivisor bs) (leading bs).1 (leading bs).2 (windowAt as bs j)

section Run

variable {as bs : Digits} (two : 2 ≤ bs.length) (top : bs.getLast? ≠ some 0)

include two top

/-- The shifted divisor has as many digits, and its two top digits lead it. -/
theorem normalDivisor_eq : ∃ low, low.length + 2 = bs.length ∧ Digit.base ≤ 2 * (leading bs).1.toNat ∧
    normalDivisor bs = low ++ [(leading bs).2, (leading bs).1] := by
  have ne : bs ≠ [] := List.length_pos_iff.1 (Nat.lt_of_succ_lt two)
  obtain ⟨low, next, lead, len, high, eq⟩ := exists_normalDivisor ne top two
  obtain ⟨_, three⟩ := topThree_leading low next lead
  have digits : leading bs = (lead, next) := by rw [leading, normalDivisor, eq, three]
  exact ⟨low, len, by rwa [digits], by rwa [digits]⟩

theorem length_normalDivisor : (normalDivisor bs).length = bs.length := by
  obtain ⟨low, len, -, eq⟩ := normalDivisor_eq two top
  rw [eq, List.length_append, ← len]
  rfl

theorem divideNormal_eq_dividedFrom : divideNormal as bs =
    ((dividedFrom as bs 0).1, shiftDown (normalShift bs) (dividedFrom as bs 0).2) := by
  obtain ⟨low, -, -, eq⟩ := normalDivisor_eq two top
  rw [divideNormal_eq eq, dividedFrom, eq, List.drop_zero]

variable (long : bs.length ≤ as.length)

include long

/-- A place takes one step from what is left above it. -/
theorem dividedFrom_eq {j : Nat} (h : j < quotientPlaces as bs) : dividedFrom as bs j =
    ((stepAt as bs j).1 :: (dividedFrom as bs (j + 1)).1, (stepAt as bs j).2.take bs.length) := by
  have place : j < (normalDividend as bs).length := by
    rw [length_normalDividend]
    rw [quotientPlaces] at h
    omega
  have low : ((normalDividend as bs).take (quotientPlaces as bs)).drop j =
      (normalDividend as bs).getD j 0 ::
        ((normalDividend as bs).take (quotientPlaces as bs)).drop (j + 1) := by
    rw [List.drop_eq_getElem_cons (by rw [List.length_take]; omega), List.getElem_take,
      List.getD_eq_getElem?_getD, List.getElem?_eq_getElem place, Option.getD_some]
  rw [dividedFrom, low, divideWindows, ← length_normalDivisor two top]
  rfl

/-- What is left of any places is below the divisor, and as long. -/
theorem dividedFrom_lt (j : Nat) :
    value (dividedFrom as bs j).2 < value (normalDivisor bs) ∧
      (dividedFrom as bs j).2.length = bs.length := by
  have ne : bs ≠ [] := List.length_pos_iff.1 (Nat.lt_of_succ_lt two)
  have start := value_drop_normalDividend_lt ne top long
  rw [← value_shiftUp (normalShift_spec ne top).1, ← normalDivisor] at start
  obtain ⟨low, len, high, eq⟩ := normalDivisor_eq two top
  have pos : 0 < (leading bs).1.toNat := Nat.pos_of_mul_pos_left (Nat.lt_of_lt_of_le base_pos high)
  have startLength : ((normalDividend as bs).drop (quotientPlaces as bs)).length = low.length + 2 := by
    rw [List.length_drop, length_normalDividend, quotientPlaces]
    omega
  rw [eq] at start
  obtain ⟨-, left, leftLength⟩ := divideWindows_spec pos startLength start
    (((normalDividend as bs).take (quotientPlaces as bs)).drop j)
  rw [dividedFrom, eq, left, leftLength, len]
  exact ⟨Nat.mod_lt _ (Nat.zero_lt_of_lt start), rfl⟩

/-- Every step of a long division is exact. -/
theorem exactWindow_windowAt (j : Nat) :
    ExactWindow (normalDivisor bs) (leading bs).1 (leading bs).2 (windowAt as bs j) := by
  obtain ⟨below, length⟩ := dividedFrom_lt two top long (j + 1)
  obtain ⟨low, len, high, eq⟩ := normalDivisor_eq two top
  have window : (windowAt as bs j).length = low.length + 3 := by
    rw [windowAt, List.length_cons, length, ← len]
  have lt : value (windowAt as bs j) < value (normalDivisor bs) * Digit.base := value_cons_lt _ below
  rw [eq] at lt ⊢
  exact exactWindow high window lt

/-- The steps of long division are exact for any dividend that is as long as the divisor, and end with the
    division. -/
theorem exact_windows : ExactWindows as bs where
  divisor := length_normalDivisor two top
  dividend := by
    rw [length_normalDividend, quotientPlaces]
    omega
  shifted := by
    have ne : bs ≠ [] := List.length_pos_iff.1 (Nat.lt_of_succ_lt two)
    obtain ⟨_, -, high, -⟩ := normalDivisor_eq two top
    exact ⟨value_shiftUp (normalShift_spec ne top).1 bs, value_normalDividend ne top as, high⟩
  inBounds := by
    intro j h
    rw [length_normalDividend]
    rw [quotientPlaces] at h
    omega
  first := by
    rw [dividedFrom, List.drop_of_length_le (List.length_take_le _ _)]
    rfl
  next := fun _ => dividedFrom_eq two top long
  last := divideNormal_eq_dividedFrom two top
  exact := fun j _ => exactWindow_windowAt two top long j

end Run

/-- A division whose estimate stays one too large until the divisor is added back. -/
theorem exact_windows_added_back :
    [1, 0, 2305843009213693952].getLast? ≠ some (0 : Digit) ∧
      ExactWindows [3, 0, 9223372036854775808] [1, 0, 2305843009213693952] ∧
        (subtractEstimate (normalDivisor [1, 0, 2305843009213693952])
          (leading [1, 0, 2305843009213693952]).1 (leading [1, 0, 2305843009213693952]).2
          (windowAt [3, 0, 9223372036854775808] [1, 0, 2305843009213693952] 0)).2 = true := by
  have two : 2 ≤ [1, 0, (2305843009213693952 : Digit)].length := by decide
  have top : [1, 0, 2305843009213693952].getLast? ≠ some (0 : Digit) := by decide
  exact ⟨top, exact_windows two top (by decide), by decide +kernel⟩

end Multiprecision.Digits
