import Mathlib.Tactic.Linarith
import Multiprecision.Digits.RecursiveDivision
import Multiprecision.Proofs.Digits.Difference
import Multiprecision.Proofs.Digits.LongDivision
import Multiprecision.Proofs.Digits.Product

/-! Division by halving gives the quotient and the remainder. A quotient by the upper half of a divisor
    is never too small, and the loop that corrects it keeps the dividend as quotient times divisor plus
    a signed remainder below the divisor; it stops when that remainder is not negative. -/

namespace Multiprecision.Digits

/-! ### Blocks -/

theorem toNat_block (m : Magnitude) (lo hi : Nat) :
    (block m lo hi).toNat = m.toNat % weight hi / weight lo := by
  rw [block, Magnitude.toNat_ofDigits, value_range]
  rfl

@[simp] theorem toNat_block_length (m : Magnitude) (lo : Nat) :
    (block m lo m.length).toNat = m.toNat / weight lo := by
  rw [toNat_block, Nat.mod_eq_of_lt m.toNat_lt_weight]

@[simp] theorem toNat_block_zero (m : Magnitude) (hi : Nat) :
    (block m 0 hi).toNat = m.toNat % weight hi := by
  rw [toNat_block, weight_zero, Nat.div_one]

@[simp] theorem toNat_raise (m : Magnitude) (n : Nat) : (raise m n).toNat = weight n * m.toNat := by
  rw [raise, Magnitude.toNat_ofDigits, value_append, value_replicate_zero, List.length_replicate,
    Nat.zero_add]
  rfl

theorem toNat_block_zero_lt (m : Magnitude) (hi : Nat) : (block m 0 hi).toNat < weight hi := by
  rw [toNat_block_zero]
  exact Nat.mod_lt _ (weight_pos hi)

/-- A block as high as the place that it starts from has as many digits at most. -/
theorem toNat_block_add_lt (m : Magnitude) (lo : Nat) : (block m lo (lo + lo)).toNat < weight lo := by
  rw [toNat_block, weight_add, Nat.mod_mul_right_div_self]
  exact Nat.mod_lt _ (weight_pos lo)

/-- A magnitude is its lower block and its upper one. -/
theorem toNat_blocks (m : Magnitude) (n : Nat) :
    m.toNat = (block m 0 n).toNat + weight n * (block m n m.length).toNat := by
  rw [toNat_block_zero, toNat_block_length, Nat.mod_add_div]

theorem toNat_joinBlocks (hi : Magnitude) {lo : Digits} {n : Nat} (lt : value lo < weight n) :
    (joinBlocks hi lo n).toNat = value lo + weight n * hi.toNat := by
  rw [joinBlocks, Magnitude.toNat_ofDigits, value_append, value_resize, length_resize, value_trim,
    Nat.mod_eq_of_lt lt]
  rfl

/-- As many largest digits denote one less than the weight of the next place. -/
theorem value_replicate_max (n : Nat) : value (List.replicate n Digit.max) + 1 = weight n := by
  induction n with
  | zero => rfl
  | succ n ih =>
    have largest : Digit.max.toNat = Digit.base - 1 := rfl
    have pos := base_pos
    rw [List.replicate_succ, value_cons, weight_succ, ← ih, Nat.mul_succ, largest]
    omega

/-! ### The correction -/

/-- A quotient times the divisor and a signed remainder below the divisor that make up `t`. -/
structure Pending (b q : Magnitude) (s : Sign) (r : Magnitude) (t : Nat) : Prop where
  coherent : s = .zero ↔ r.isZero = true
  whole : (t : Int) = b.toNat * q.toNat + s.toInt * r.toNat
  lt : s.toInt * r.toNat < b.toNat

namespace Pending

variable {b q r : Magnitude} {s : Sign} {t : Nat}

theorem toNat_pos (h : Pending b q .negative r t) : 0 < r.toNat := by
  apply Nat.pos_of_ne_zero
  intro z
  simpa using h.coherent.2 ((Magnitude.isZero_iff r).2 z)

/-- A negative remainder leaves at least one divisor in the quotient. -/
theorem quotient_pos (h : Pending b q .negative r t) : 0 < q.toNat := by
  have whole := h.whole
  have rpos := h.toNat_pos
  apply Nat.pos_of_ne_zero
  intro z
  rw [z, Int.natCast_zero, Int.mul_zero, Sign.toInt] at whole
  omega

/-- A divisor moved from the quotient to a negative remainder changes nothing of the whole. -/
theorem next (h : Pending b q .negative r t) :
    Pending b (subtract q.digits [1]).2 (subtract b.digits r.digits).1 (subtract b.digits r.digits).2 t := by
  have moved : (subtract b.digits r.digits).1.toInt * (subtract b.digits r.digits).2.toNat =
      (b.toNat : Int) - r.toNat := toInt_subtract ..
  have rpos := h.toNat_pos
  obtain ⟨k, hk⟩ := Nat.exists_eq_succ_of_ne_zero (Nat.ne_of_gt h.quotient_pos)
  have less : (subtract q.digits [1]).2.toNat = k := by
    have one : value [1] = 1 := rfl
    rw [toNat_subtract, Magnitude.value_digits, hk, one]
    omega
  refine ⟨sign_subtract_eq_zero_iff .., ?_, ?_⟩
  · rw [h.whole, moved, less, hk, Sign.toInt]
    push_cast
    ring
  · rw [moved]
    omega

/-- A remainder that is not negative is the remainder of the division. -/
theorem divided (h : Pending b q s r t) (notNegative : s ≠ .negative) : Divided t b.toNat (q, r) := by
  have remainder : s.toInt * (r.toNat : Int) = r.toNat := by
    cases s with
    | negative => exact absurd rfl notNegative
    | zero => rw [(Magnitude.isZero_iff r).1 (h.coherent.1 rfl)]; rfl
    | positive => exact Int.one_mul _
  have whole := h.whole
  have lt := h.lt
  rw [remainder] at whole lt
  refine Divided.of_law ?_ (by exact_mod_cast lt)
  rw [Nat.add_comm]
  exact_mod_cast whole.symm

end Pending

/-- The correction ends with quotient and remainder. -/
theorem correct_spec {b q : Magnitude} {s : Sign} {r : Magnitude} {t : Nat}
    (pending : Pending b q s r t) (pos : 0 < b.toNat) : Divided t b.toNat (correct b q s r) := by
  fun_induction correct b q s r with
  | case1 q s r negative d ih =>
    obtain ⟨rfl, -⟩ := negative
    exact ih pending.next
  | case2 q s r negative =>
    refine pending.divided ?_
    rintro rfl
    refine negative ⟨rfl, Bool.eq_false_iff.2 ?_⟩
    rw [ne_eq, Magnitude.isZero_iff]
    omega

/-! ### The two steps -/

/-- A divisor of exactly `n` digits. -/
structure Full (b : Magnitude) (n : Nat) : Prop where
  high : weight n ≤ Digit.base * b.toNat
  fits : b.toNat < weight n

namespace Full

variable {b : Magnitude} {n : Nat}

theorem pos (full : Full b n) : 0 < b.toNat := by
  apply Nat.pos_of_ne_zero
  intro z
  have high := full.high
  rw [z, Nat.mul_zero] at high
  exact Nat.not_le_of_lt (weight_pos n) high

theorem raise (full : Full b n) : Full (raise b 1) (n + 1) := by
  constructor
  · rw [weight_succ, toNat_raise, weight_one]
    exact Nat.mul_le_mul_left _ full.high
  · rw [weight_succ, toNat_raise, weight_one]
    exact Nat.mul_lt_mul_of_pos_left full.fits base_pos

/-- The upper half has half as many digits. -/
theorem upper {h : Nat} (full : Full b (h + h)) : Full (block b h b.length) h := by
  have high := full.high
  have fits := full.fits
  rw [weight_add] at high fits
  constructor
  · rw [toNat_block_length]
    cases h with
    | zero => simpa using high
    | succ k =>
      rw [weight_succ k] at high ⊢
      refine Nat.mul_le_mul_left _ ((Nat.le_div_iff_mul_le (weight_succ k ▸ weight_pos _)).2 ?_)
      rw [Nat.mul_assoc] at high
      exact Nat.le_of_mul_le_mul_left high base_pos
  · rw [toNat_block_length]
    exact Nat.div_lt_of_lt_mul fits

end Full

section ThreeByTwo

variable {a₁₂ a₃ b b₁ b₂ : Magnitude} {n : Nat}

/-- The quotient by the upper half `b₁` of the divisor, or the largest one of `n` digits. -/
def upperQuotient (a₁₂ b₁ : Magnitude) (n : Nat) : Magnitude × Magnitude :=
  if block a₁₂ n a₁₂.length = b₁ then
    (Magnitude.ofDigits (List.replicate n Digit.max),
      add (subtract a₁₂.digits (raise b₁ n).digits).2.digits b₁.digits)
  else divideTwoByOne a₁₂ b₁ n

/-- Where the top of `a₁₂` is not `b₁`, the quotient by `b₁` fits in `n` digits. -/
theorem lt_of_block_ne (parts : b.toNat = b₂.toNat + weight n * b₁.toNat)
    (short : b₂.toNat < weight n) (below : a₁₂.toNat < b.toNat)
    (differ : block a₁₂ n a₁₂.length ≠ b₁) : a₁₂.toNat < b₁.toNat * weight n := by
  have top : a₁₂.toNat / weight n ≠ b₁.toNat := by
    rw [← toNat_block_length]
    intro e
    exact differ (Magnitude.eq_of_toNat_eq e)
  have le : a₁₂.toNat / weight n < b₁.toNat + 1 := by
    refine Nat.div_lt_of_lt_mul ?_
    rw [Nat.mul_succ]
    omega
  exact (Nat.div_lt_iff_lt_mul (weight_pos n)).1
    (Nat.lt_of_le_of_ne (Nat.le_of_lt_succ le) top)

/-- The quotient by the upper half leaves a remainder, and is not too small for the whole divisor. -/
theorem upperQuotient_spec (parts : b.toNat = b₂.toNat + weight n * b₁.toNat)
    (short : b₂.toNat < weight n) (below : a₁₂.toNat < b.toNat) (lower : a₃.toNat < weight n)
    (half : a₁₂.toNat < b₁.toNat * weight n →
      Divided a₁₂.toNat b₁.toNat (divideTwoByOne a₁₂ b₁ n)) (pos : 0 < b₁.toNat) :
    (upperQuotient a₁₂ b₁ n).2.toNat + b₁.toNat * (upperQuotient a₁₂ b₁ n).1.toNat = a₁₂.toNat ∧
      a₃.toNat + weight n * a₁₂.toNat < b.toNat * ((upperQuotient a₁₂ b₁ n).1.toNat + 1) := by
  rw [upperQuotient]
  split
  · next same =>
    have top : a₁₂.toNat / weight n = b₁.toNat := by rw [← toNat_block_length, same]
    have split := Nat.mod_add_div a₁₂.toNat (weight n)
    have largest := value_replicate_max n
    have left : (subtract a₁₂.digits (raise b₁ n).digits).2.toNat = a₁₂.toNat % weight n := by
      rw [toNat_subtract, Magnitude.value_digits, Magnitude.value_digits, toNat_raise]
      rw [top] at split
      omega
    rw [toNat_add, Magnitude.toNat_ofDigits, largest]
    constructor
    · calc value (subtract a₁₂.digits (raise b₁ n).digits).2.digits + value b₁.digits +
            b₁.toNat * value (List.replicate n Digit.max)
          = a₁₂.toNat % weight n + b₁.toNat * (value (List.replicate n Digit.max) + 1) := by
            rw [← left, Magnitude.toNat, Magnitude.toNat]
            ring
        _ = a₁₂.toNat := by rw [largest, Nat.mul_comm, ← top, split]
    · have := Nat.mul_le_mul_left (weight n) below
      rw [Nat.mul_succ, Nat.mul_comm _ b.toNat] at this
      omega
  · next differ =>
    have fits := lt_of_block_ne parts short below differ
    obtain ⟨hq, hr⟩ := half fits
    rw [hq, hr]
    refine ⟨Nat.mod_add_div .., ?_⟩
    have next := Nat.mul_le_mul_left (weight n) (Nat.lt_mul_div_succ a₁₂.toNat pos)
    calc a₃.toNat + weight n * a₁₂.toNat < weight n * (a₁₂.toNat + 1) := by
          rw [Nat.mul_succ]
          omega
      _ ≤ weight n * (b₁.toNat * (a₁₂.toNat / b₁.toNat + 1)) := next
      _ ≤ b.toNat * (a₁₂.toNat / b₁.toNat + 1) := by
          rw [← Nat.mul_assoc, parts]
          exact Nat.mul_le_mul_right _ (Nat.le_add_left ..)

/-- What is left, as sign and magnitude, once the product of the quotient `x.1` and the lower half `b₂` is
    taken from the remainder `x.2` above the block `a₃`. -/
def firstRemainder (a₃ b₂ : Magnitude) (n : Nat) (x : Magnitude × Magnitude) : Sign × Magnitude :=
  subtract (joinBlocks x.2 a₃.digits n).digits (multiply x.1.digits b₂.digits).digits

theorem divideThreeByTwo_eq (a₁₂ a₃ b b₁ b₂ : Magnitude) (n : Nat) :
    divideThreeByTwo a₁₂ a₃ b b₁ b₂ n =
      correct b (upperQuotient a₁₂ b₁ n).1 (firstRemainder a₃ b₂ n (upperQuotient a₁₂ b₁ n)).1
        (firstRemainder a₃ b₂ n (upperQuotient a₁₂ b₁ n)).2 := by
  rw [divideThreeByTwo]
  rfl

/-- What is left first is the remainder above the lower block less the product with the lower half. -/
theorem toInt_firstRemainder (lower : a₃.toNat < weight n) (b₂ : Magnitude) (x : Magnitude × Magnitude) :
    (firstRemainder a₃ b₂ n x).1.toInt * (firstRemainder a₃ b₂ n x).2.toNat =
      ((a₃.toNat + weight n * x.2.toNat : Nat) : Int) - (x.1.toNat * b₂.toNat : Nat) := by
  have hi : value (joinBlocks x.2 a₃.digits n).digits = a₃.toNat + weight n * x.2.toNat :=
    toNat_joinBlocks x.2 lower
  have lo : value (multiply x.1.digits b₂.digits).digits = x.1.toNat * b₂.toNat := toNat_multiply ..
  rw [firstRemainder, toInt_subtract, hi, lo]

/-- It is the dividend less the quotient times the divisor. -/
theorem toInt_firstRemainder_eq (parts : b.toNat = b₂.toNat + weight n * b₁.toNat)
    (lower : a₃.toNat < weight n) {x : Magnitude × Magnitude}
    (law : x.2.toNat + b₁.toNat * x.1.toNat = a₁₂.toNat) :
    (firstRemainder a₃ b₂ n x).1.toInt * (firstRemainder a₃ b₂ n x).2.toNat =
      ((a₃.toNat + weight n * a₁₂.toNat : Nat) : Int) - b.toNat * x.1.toNat := by
  rw [toInt_firstRemainder lower, parts, ← law]
  push_cast
  ring

/-- What is left first waits for its correction. -/
theorem pending_firstRemainder (parts : b.toNat = b₂.toNat + weight n * b₁.toNat)
    (lower : a₃.toNat < weight n) {x : Magnitude × Magnitude}
    (law : x.2.toNat + b₁.toNat * x.1.toNat = a₁₂.toNat)
    (notSmall : a₃.toNat + weight n * a₁₂.toNat < b.toNat * (x.1.toNat + 1)) :
    Pending b x.1 (firstRemainder a₃ b₂ n x).1 (firstRemainder a₃ b₂ n x).2
      (a₃.toNat + weight n * a₁₂.toNat) := by
  have signed := toInt_firstRemainder_eq parts lower law
  refine ⟨sign_subtract_eq_zero_iff .., ?_, ?_⟩
  · rw [signed]
    ring
  · rw [Nat.mul_succ] at notSmall
    have notSmall := Int.ofNat_lt.2 notSmall
    rw [signed]
    push_cast at notSmall ⊢
    linarith

/-- Three halves by two, from two halves by one. -/
theorem divideThreeByTwo_spec (parts : b.toNat = b₂.toNat + weight n * b₁.toNat)
    (short : b₂.toNat < weight n) (below : a₁₂.toNat < b.toNat) (lower : a₃.toNat < weight n)
    (half : a₁₂.toNat < b₁.toNat * weight n →
      Divided a₁₂.toNat b₁.toNat (divideTwoByOne a₁₂ b₁ n)) (pos : 0 < b₁.toNat) :
    Divided (a₃.toNat + weight n * a₁₂.toNat) b.toNat (divideThreeByTwo a₁₂ a₃ b b₁ b₂ n) := by
  obtain ⟨law, notSmall⟩ := upperQuotient_spec parts short below lower half pos
  rw [divideThreeByTwo_eq]
  exact correct_spec (pending_firstRemainder parts lower law notSmall) (Nat.zero_lt_of_lt below)

end ThreeByTwo

/-! ### Two blocks by one -/

section TwoByOne

variable {a b : Magnitude} {n : Nat}

/-- One more digit at the bottom of both numbers leaves the dividend below the divisor times the weight. -/
theorem raise_lt (lt : a.toNat < b.toNat * weight n) :
    (raise a 1).toNat < (raise b 1).toNat * weight (n + 1) := by
  rw [toNat_raise, toNat_raise, weight_one, weight_succ, Nat.mul_assoc]
  refine Nat.mul_lt_mul_of_pos_left (Nat.lt_of_lt_of_le lt ?_) base_pos
  exact Nat.mul_le_mul_left _ (Nat.le_mul_of_pos_left _ base_pos)

/-- The upper block of the dividend is below the divisor. -/
theorem toNat_block_lt (lt : a.toNat < b.toNat * weight n) : (block a n a.length).toNat < b.toNat := by
  rw [toNat_block_length, Nat.div_lt_iff_lt_mul (weight_pos _)]
  exact lt

/-- One more digit at the bottom of both numbers is one more at the bottom of the remainder. -/
theorem divided_of_raise {q r : Magnitude}
    (raised : Divided (raise a 1).toNat (raise b 1).toNat (q, r)) :
    Divided a.toNat b.toNat (q, block r 1 r.length) := by
  obtain ⟨hq, hr⟩ := raised
  rw [toNat_raise, toNat_raise, weight_one] at hq hr
  rw [Nat.mul_div_mul_left _ _ base_pos] at hq
  rw [Nat.mul_mod_mul_left] at hr
  refine ⟨hq, ?_⟩
  rw [toNat_block_length, weight_one, hr, Nat.mul_div_cancel_left _ base_pos]

/-- Two steps of three halves by two make two blocks by one. -/
theorem divided_of_halves {h : Nat} {one two : Magnitude × Magnitude}
    (first : Divided ((block a h (h + h)).toNat + weight h * (block a (h + h) a.length).toNat)
      b.toNat one)
    (second : Divided ((block a 0 h).toNat + weight h * one.2.toNat) b.toNat two)
    (pos : 0 < b.toNat) :
    Divided a.toNat b.toNat (joinBlocks one.1 two.1.digits h, two.2) := by
  have upper : (block a h (h + h)).toNat + weight h * (block a (h + h) a.length).toNat =
      a.toNat / weight h := by
    rw [toNat_block, toNat_block_length, weight_add, Nat.mod_mul_right_div_self,
      ← Nat.div_div_eq_div_mul, Nat.mod_add_div]
  rw [upper] at first
  rw [toNat_block_zero] at second
  obtain ⟨hq, hr⟩ := div_mod_of_window (x := a.toNat % weight h) (weight h) first.quotient
    first.remainder
  rw [Nat.mod_add_div] at hq hr
  have digit : value two.1.digits < weight h := by
    have below : one.2.toNat < b.toNat := by
      rw [first.remainder]
      exact Nat.mod_lt _ pos
    have above := Nat.mul_le_mul_left (weight h) below
    have low := Nat.mod_lt a.toNat (weight_pos h)
    rw [Magnitude.value_digits, second.quotient]
    refine Nat.div_lt_of_lt_mul ?_
    rw [Nat.mul_succ] at above
    rw [Nat.mul_comm b.toNat]
    omega
  refine ⟨?_, second.remainder.trans hr⟩
  rw [toNat_joinBlocks _ digit, Magnitude.value_digits, second.quotient, hq]

end TwoByOne

/-- Division by halving gives quotient and remainder of two blocks by one. -/
theorem divideTwoByOne_spec {a b : Magnitude} {n : Nat} (full : Full b n)
    (lt : a.toNat < b.toNat * weight n) : Divided a.toNat b.toNat (divideTwoByOne a b n) := by
  rw [divideTwoByOne]
  split
  · exact longDivideNonzero_spec _ (Nat.ne_of_gt full.pos)
  · next long =>
    split
    · next odd =>
      exact divided_of_raise (divideTwoByOne_spec full.raise (raise_lt lt))
    · next even =>
      obtain ⟨h, rfl⟩ : ∃ h, n = h + h := ⟨n / 2, by omega⟩
      have halves : (h + h) / 2 = h := by omega
      have upper := full.upper
      have step {a₁₂ a₃ : Magnitude} (below : a₁₂.toNat < b.toNat) (lower : a₃.toNat < weight h) :=
        divideThreeByTwo_spec (toNat_blocks b h) (toNat_block_zero_lt b h) below lower
          (divideTwoByOne_spec upper) upper.pos
      have first := step (toNat_block_lt lt) (toNat_block_add_lt a h)
      rw [halves]
      refine divided_of_halves first (step ?_ (toNat_block_zero_lt a h)) full.pos
      exact first.remainder ▸ Nat.mod_lt _ full.pos
termination_by 4 * (n + n % 2) + n % 2

/-! ### The blocks of a dividend -/

/-- The number that blocks of `n` digits denote, the lowest first. -/
def blocksValue (n : Nat) : List Digits → Nat
  | [] => 0
  | c :: cs => value c + weight n * blocksValue n cs

/-- A list cut into blocks denotes what it denoted. -/
theorem blocksValue_chunks {n : Nat} (pos : 0 < n) (ds : Digits) :
    blocksValue n (chunks n ds) = value ds := by
  fun_induction chunks n ds with
  | case1 => rfl
  | case2 d ds ih =>
    obtain ⟨m, rfl⟩ := Nat.exists_eq_add_of_lt pos
    rw [Nat.zero_add, Nat.add_sub_cancel] at *
    rw [blocksValue, ih, value_split (d :: ds) (m + 1), List.take_succ_cons, List.drop_succ_cons]

/-- A block below a remainder is below the divisor times the weight of its places. -/
theorem toNat_joinBlocks_lt {r b : Magnitude} {c : Digits} {n : Nat} (fits : value c < weight n)
    (carried : r.toNat < b.toNat) : (joinBlocks r c n).toNat < b.toNat * weight n := by
  have above := Nat.mul_le_mul_left (weight n) carried
  rw [Nat.mul_succ, Nat.mul_comm _ b.toNat] at above
  rw [toNat_joinBlocks r fits]
  omega

/-- The blocks are divided from the top: each leaves a remainder for the next one. -/
theorem divideBlocks_spec {b : Magnitude} {n : Nat} (full : Full b n) {cs : List Digits}
    (fit : ∀ c ∈ cs, c.length ≤ n) :
    value (divideBlocks b n cs).1 = blocksValue n cs / b.toNat ∧
      (divideBlocks b n cs).2.toNat = blocksValue n cs % b.toNat := by
  induction cs with
  | nil => simp [divideBlocks, blocksValue]
  | cons c cs ih =>
    rw [List.forall_mem_cons] at fit
    obtain ⟨hq, hr⟩ := ih fit.2
    simp only [divideBlocks, blocksValue]
    generalize (divideBlocks b n cs).1 = qs at *
    generalize (divideBlocks b n cs).2 = r at *
    have lower : value c < weight n :=
      Nat.lt_of_lt_of_le (value_lt c) (weight_mono fit.1)
    have rest : r.toNat < b.toNat := by
      rw [hr]
      exact Nat.mod_lt _ full.pos
    have below := toNat_joinBlocks_lt lower rest
    have block := divideTwoByOne_spec full below
    obtain ⟨dv, md⟩ := div_mod_of_window (x := value c) (weight n) hq hr
    rw [toNat_joinBlocks r lower] at below block
    constructor
    · have digit := Nat.div_lt_of_lt_mul below
      rw [← block.quotient] at digit dv
      rw [value_append, value_resize, length_resize, ← dv]
      exact congrArg (· + _) (Nat.mod_eq_of_lt digit)
    · rw [block.remainder, md]

/-- A magnitude that is not zero fills its digits. -/
theorem full_length {m : Magnitude} (nonzero : m.toNat ≠ 0) : Full m m.length := by
  refine ⟨?_, m.toNat_lt_weight⟩
  have pos : 0 < m.digits.length := m.length_pos
  have high := Nat.mul_le_mul_left Digit.base
    (weight_le_value m.normal.1 (m.getLast?_digits nonzero))
  rw [← weight_succ, Nat.sub_add_cancel pos] at high
  exact high

/-! ### The shifted numbers in blocks -/

/-- The divisor, without zeros at the top, shifted up until its top bit is set. -/
def blockDivisor (bs : Digits) : Magnitude :=
  Magnitude.ofDigits (shiftUp (normalShift (trim bs)) (trim bs))

/-- The blocks of the dividend shifted alike, as long as the divisor, the lowest first. -/
def dividendBlocks (as bs : Digits) : List Digits :=
  chunks (blockDivisor bs).length (shiftUp (normalShift (trim bs)) (trim as))

/-- No block has more digits than the divisor. -/
theorem length_le_of_mem_dividendBlocks (as bs : Digits) :
    ∀ c ∈ dividendBlocks as bs, c.length ≤ (blockDivisor bs).length := by
  intro c mem
  exact (length_le_of_mem_chunks (blockDivisor bs).length_pos mem).2

section Blocks

variable {bs : Digits} (nonzero : value bs ≠ 0)

include nonzero

theorem trim_ne_nil : trim bs ≠ [] := by
  intro empty
  rw [← value_trim, empty, value_nil] at nonzero
  exact nonzero rfl

theorem normalShift_trim_lt : normalShift (trim bs) < Digit.bits :=
  (normalShift_spec (trim_ne_nil nonzero) (getLast?_trim bs)).1

theorem toNat_blockDivisor : (blockDivisor bs).toNat = value bs * twoTo (normalShift (trim bs)) := by
  rw [blockDivisor, Magnitude.toNat_ofDigits, value_shiftUp (normalShift_trim_lt nonzero), value_trim]

theorem blocksValue_dividendBlocks (as : Digits) :
    blocksValue (blockDivisor bs).length (dividendBlocks as bs) =
      value as * twoTo (normalShift (trim bs)) := by
  rw [dividendBlocks, blocksValue_chunks (blockDivisor bs).length_pos,
    value_shiftUp (normalShift_trim_lt nonzero), value_trim]

/-- The blocks have the quotient itself, and the remainder shifted like the numbers. -/
theorem divideBlocks_dividendBlocks (as : Digits) :
    value (divideBlocks (blockDivisor bs) (blockDivisor bs).length (dividendBlocks as bs)).1 =
        value as / value bs ∧
      (divideBlocks (blockDivisor bs) (blockDivisor bs).length (dividendBlocks as bs)).2.toNat =
        value as % value bs * twoTo (normalShift (trim bs)) := by
  have P := twoTo_pos (normalShift (trim bs))
  have full := full_length (m := blockDivisor bs) (by
    rw [toNat_blockDivisor nonzero]
    exact Nat.mul_ne_zero nonzero (Nat.ne_of_gt P))
  have run := divideBlocks_spec full (length_le_of_mem_dividendBlocks as bs)
  rwa [blocksValue_dividendBlocks nonzero, toNat_blockDivisor nonzero, Nat.mul_div_mul_right _ _ P,
    Nat.mul_mod_mul_right] at run

end Blocks

/-- A dividend that is not below the divisor is divided in blocks, and the remainder is shifted back. -/
theorem halvingDivideNonzero_of_le {as bs : Digits} (le : value bs ≤ value as) :
    halvingDivideNonzero as bs =
      (Magnitude.ofDigits
          (divideBlocks (blockDivisor bs) (blockDivisor bs).length (dividendBlocks as bs)).1,
        Magnitude.ofDigits (shiftDown (normalShift (trim bs))
          (divideBlocks (blockDivisor bs) (blockDivisor bs).length
            (dividendBlocks as bs)).2.digits)) := by
  have notLess : ¬compare (trim as) (trim bs) = .lt := by
    rw [compare_eq_lt_iff, value_trim, value_trim]
    exact Nat.not_lt_of_le le
  rw [halvingDivideNonzero]
  exact if_neg notLess

/-- Division by halving gives the quotient and the remainder. -/
theorem halvingDivideNonzero_spec (as : Digits) {bs : Digits} (nonzero : value bs ≠ 0) :
    Divided (value as) (value bs) (halvingDivideNonzero as bs) := by
  rcases Nat.lt_or_ge (value as) (value bs) with less | le
  · have early : compare (trim as) (trim bs) = .lt := by
      rwa [compare_eq_lt_iff, value_trim, value_trim]
    have whole : Divided (value (trim as)) (value bs) (halvingDivideNonzero as bs) := by
      rw [halvingDivideNonzero]
      exact (if_pos early).symm ▸ divided_of_lt (by rwa [value_trim])
    rwa [value_trim] at whole
  · obtain ⟨quotient, remainder⟩ := divideBlocks_dividendBlocks nonzero as
    rw [halvingDivideNonzero_of_le le]
    refine ⟨(Magnitude.toNat_ofDigits _).trans quotient, (Magnitude.toNat_ofDigits _).trans ?_⟩
    rw [value_shiftDown (normalShift_trim_lt nonzero), Magnitude.value_digits, remainder]
    exact Nat.mul_div_cancel _ (twoTo_pos _)

end Multiprecision.Digits
