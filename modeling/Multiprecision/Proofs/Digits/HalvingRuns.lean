import Multiprecision.Proofs.Digits.Correction

/-! The recursion of division by halving. An odd size grows by one digit before it is halved, and
    whether a division goes to long division is decided by the length of its quotient, not by its size.
    A run is a finite tree of the calls, in which every call has operands that the next one can rely on:
    the top bit of a divisor of exactly `n` digits, and a dividend below the divisor times the weight of
    `n` places. Every division of such operands has one run. -/

namespace Multiprecision.Digits

/-! ### Two blocks by one -/

/-- Two blocks of `n` digits and a divisor of one whose top bit is set, where the quotient fits in one. -/
structure TwoBlocks (a b : Magnitude) (n : Nat) : Prop where
  normal : TopBitSet b n
  lt : a.toNat < b.toNat * weight n

namespace TwoBlocks

variable {a b : Magnitude} {n : Nat} (blocks : TwoBlocks a b n)

include blocks

theorem pos : 0 < n := by
  rw [← blocks.normal.length]
  exact b.length_pos

theorem divided : Divided a.toNat b.toNat (divideTwoByOne a b n) :=
  divideTwoByOne_spec blocks.normal.full blocks.lt

theorem remainder_lt : (divideTwoByOne a b n).2.toNat < b.toNat := by
  rw [blocks.divided.remainder]
  exact Nat.mod_lt _ blocks.normal.full.pos

/-- The quotient has at most `n` digits. -/
theorem length_quotient_le : (divideTwoByOne a b n).1.length ≤ n := by
  rw [Magnitude.length_le_iff _ blocks.pos, blocks.divided.quotient]
  exact Nat.div_lt_of_lt_mul blocks.lt

theorem raise : TwoBlocks (raise a 1) (raise b 1) (n + 1) := ⟨blocks.normal.raise, raise_lt blocks.lt⟩

theorem length_le : a.length ≤ n + n := by
  rw [a.length_le_iff (Nat.add_pos_left blocks.pos n), weight_add]
  exact Nat.lt_of_lt_of_le blocks.lt (Nat.mul_le_mul_right _ (Nat.le_of_lt blocks.normal.full.fits))

/-- A quotient that is not short has more places than the smallest sizes allow. -/
theorem long (many : shortQuotient < a.length - n) : ¬(a.length - n ≤ shortQuotient ∨ n ≤ 2) := by
  have le := blocks.length_le
  rw [shortQuotient] at *
  omega

end TwoBlocks

/-! ### From one size to the other -/

/-- A divisor whose size is even makes three blocks by two with its halves. -/
theorem TopBitSet.threeBlocks {a₁₂ a₃ b : Magnitude} {h : Nat} (normal : TopBitSet b (h + h))
    (below : a₁₂.toNat < b.toNat) (lower : a₃.toNat < weight h) :
    ThreeBlocks a₁₂ a₃ b (block b h b.length) (block b 0 h) h where
  normal := normal.upper
  parts := toNat_blocks b h
  short := toNat_block_zero_lt b h
  below := below
  lower := lower

/-- The two upper blocks and the upper half of the divisor are two blocks by one again. -/
theorem ThreeBlocks.twoBlocks {a₁₂ a₃ b b₁ b₂ : Magnitude} {n : Nat}
    (blocks : ThreeBlocks a₁₂ a₃ b b₁ b₂ n) (differ : block a₁₂ n a₁₂.length ≠ b₁) :
    TwoBlocks a₁₂ b₁ n :=
  ⟨blocks.normal, lt_of_block_ne blocks.parts blocks.short blocks.below differ⟩

/-! ### The runs -/

/-- A block of at most `n` digits, so that none is lost where it is joined below another. -/
def FitsBlock (lo : Digits) (n : Nat) : Prop := (trim lo).length ≤ n

theorem fitsBlock_iff (m : Magnitude) (n : Nat) : FitsBlock m.digits n ↔ m.toNat < weight n :=
  length_trim_le_iff ..

/-- The largest quotient of `n` digits, and what it leaves where the top of the dividend is `b₁`. -/
def saturatedQuotient (a₁₂ b₁ : Magnitude) (n : Nat) : Magnitude × Magnitude :=
  (Magnitude.ofDigits (List.replicate n Digit.max),
    add (subtract a₁₂.digits (raise b₁ n).digits).2.digits b₁.digits)

mutual

/-- The runs of two blocks by one, with what they return. -/
inductive TwoByOneRun : Magnitude → Magnitude → Nat → Magnitude × Magnitude → Prop
  | short {a b : Magnitude} {n : Nat} (blocks : TwoBlocks a b n) (few : a.length - n ≤ shortQuotient) :
      TwoByOneRun a b n (longDivideNonzero a.digits b.digits)
  | padded {a b q r : Magnitude} {n : Nat} (blocks : TwoBlocks a b n)
      (many : shortQuotient < a.length - n) (odd : n % 2 = 1)
      (raised : TwoByOneRun (raise a 1) (raise b 1) (n + 1) (q, r)) (dropped : r.digits.head? = some 0) :
      TwoByOneRun a b n (q, block r 1 r.length)
  | halved {a b : Magnitude} {h : Nat} {x y : Magnitude × Magnitude} (blocks : TwoBlocks a b (h + h))
      (many : shortQuotient < a.length - (h + h))
      (upper : ThreeByTwoRun (block a (h + h) a.length) (block a h (h + h)) b (block b h b.length)
        (block b 0 h) h x)
      (lower : ThreeByTwoRun x.2 (block a 0 h) b (block b h b.length) (block b 0 h) h y)
      (fits : FitsBlock y.1.digits h) :
      TwoByOneRun a b (h + h) (joinBlocks x.1 y.1.digits h, y.2)

/-- The runs of three blocks by two, with what they return. -/
inductive ThreeByTwoRun :
    Magnitude → Magnitude → Magnitude → Magnitude → Magnitude → Nat → Magnitude × Magnitude → Prop
  | saturated {a₁₂ a₃ b b₁ b₂ : Magnitude} {n k : Nat} {y : Magnitude × Magnitude}
      (blocks : ThreeBlocks a₁₂ a₃ b b₁ b₂ n) (same : block a₁₂ n a₁₂.length = b₁)
      (fits : FitsBlock a₃.digits n) (bounded : k ≤ 2)
      (corrections : Corrections b (saturatedQuotient a₁₂ b₁ n).1
        (firstRemainder a₃ b₂ n (saturatedQuotient a₁₂ b₁ n)).1
        (firstRemainder a₃ b₂ n (saturatedQuotient a₁₂ b₁ n)).2 k y) :
      ThreeByTwoRun a₁₂ a₃ b b₁ b₂ n y
  | divided {a₁₂ a₃ b b₁ b₂ : Magnitude} {n k : Nat} {x y : Magnitude × Magnitude}
      (blocks : ThreeBlocks a₁₂ a₃ b b₁ b₂ n) (differ : block a₁₂ n a₁₂.length ≠ b₁)
      (quotient : TwoByOneRun a₁₂ b₁ n x) (fits : FitsBlock a₃.digits n) (bounded : k ≤ 2)
      (corrections : Corrections b x.1 (firstRemainder a₃ b₂ n x).1 (firstRemainder a₃ b₂ n x).2 k y) :
      ThreeByTwoRun a₁₂ a₃ b b₁ b₂ n y

end

/-! ### One step of the recursion -/

section Steps

variable {a b : Magnitude} {n : Nat}

theorem divideTwoByOne_short (few : a.length - n ≤ shortQuotient) :
    divideTwoByOne a b n = longDivideNonzero a.digits b.digits := by
  rw [divideTwoByOne, dif_pos (Or.inl few)]

theorem TwoBlocks.divideTwoByOne_padded (blocks : TwoBlocks a b n)
    (many : shortQuotient < a.length - n) (odd : n % 2 = 1) :
    divideTwoByOne a b n =
      ((divideTwoByOne (Digits.raise a 1) (Digits.raise b 1) (n + 1)).1,
        block (divideTwoByOne (Digits.raise a 1) (Digits.raise b 1) (n + 1)).2 1
          (divideTwoByOne (Digits.raise a 1) (Digits.raise b 1) (n + 1)).2.length) := by
  rw [divideTwoByOne, dif_neg (blocks.long many), if_pos odd]

/-- The two steps of a half, one after the other. -/
def halve (a b : Magnitude) (h : Nat) : (Magnitude × Magnitude) × (Magnitude × Magnitude) :=
  let one := divideThreeByTwo (block a (h + h) a.length) (block a h (h + h)) b (block b h b.length)
    (block b 0 h) h
  (one, divideThreeByTwo one.2 (block a 0 h) b (block b h b.length) (block b 0 h) h)

theorem TwoBlocks.divideTwoByOne_halved {h : Nat} (blocks : TwoBlocks a b (h + h))
    (many : shortQuotient < a.length - (h + h)) :
    divideTwoByOne a b (h + h) =
      (joinBlocks (halve a b h).1.1 (halve a b h).2.1.digits h, (halve a b h).2.2) := by
  have even : ¬(h + h) % 2 = 1 := by omega
  have half : (h + h) / 2 = h := by omega
  rw [divideTwoByOne, dif_neg (blocks.long many), if_neg even, half]
  rfl

end Steps

/-! ### Runs and results -/

mutual

/-- A run returns the result of the recursion. -/
theorem TwoByOneRun.eq_divideTwoByOne {a b : Magnitude} {n : Nat} {x : Magnitude × Magnitude}
    (run : TwoByOneRun a b n x) : x = divideTwoByOne a b n := by
  match run with
  | .short _ few => rw [divideTwoByOne_short few]
  | .padded blocks many odd raised _ =>
    rw [blocks.divideTwoByOne_padded many odd, ← raised.eq_divideTwoByOne]
  | .halved blocks many upper lower _ =>
    rw [blocks.divideTwoByOne_halved many, halve, ← upper.eq_divideThreeByTwo,
      ← lower.eq_divideThreeByTwo]
termination_by structural run

theorem ThreeByTwoRun.eq_divideThreeByTwo {a₁₂ a₃ b b₁ b₂ : Magnitude} {n : Nat}
    {y : Magnitude × Magnitude} (run : ThreeByTwoRun a₁₂ a₃ b b₁ b₂ n y) :
    y = divideThreeByTwo a₁₂ a₃ b b₁ b₂ n := by
  match run with
  | .saturated blocks same _ _ corrections =>
    rw [divideThreeByTwo_eq, upperQuotient, if_pos same]
    exact corrections.eq_correct blocks.pos
  | .divided blocks differ quotient _ _ corrections =>
    rw [divideThreeByTwo_eq, upperQuotient, if_neg differ, ← quotient.eq_divideTwoByOne]
    exact corrections.eq_correct blocks.pos
termination_by structural run

end

/-- Three blocks by two have a run, where the quotient by the upper half has one. -/
theorem ThreeBlocks.run {a₁₂ a₃ b b₁ b₂ : Magnitude} {n : Nat} (blocks : ThreeBlocks a₁₂ a₃ b b₁ b₂ n)
    (quotient : TwoBlocks a₁₂ b₁ n → TwoByOneRun a₁₂ b₁ n (divideTwoByOne a₁₂ b₁ n)) :
    ThreeByTwoRun a₁₂ a₃ b b₁ b₂ n (divideThreeByTwo a₁₂ a₃ b b₁ b₂ n) := by
  obtain ⟨k, bounded, corrections⟩ := blocks.exists_corrections_le_two
  have fits : FitsBlock a₃.digits n := (fitsBlock_iff a₃ n).2 blocks.lower
  by_cases same : block a₁₂ n a₁₂.length = b₁
  · rw [upperQuotient, if_pos same] at corrections
    exact .saturated blocks same fits bounded corrections
  · rw [upperQuotient, if_neg same] at corrections
    exact .divided blocks same (quotient (blocks.twoBlocks same)) fits bounded corrections

/-- A number that the base divides has the lowest digit zero. -/
theorem head?_digits {m : Magnitude} (dvd : Digit.base ∣ m.toNat) : m.digits.head? = some 0 := by
  obtain ⟨d, ds, digits⟩ := List.exists_cons_of_ne_nil m.normal.1
  rw [Magnitude.toNat, digits, value_cons, Nat.dvd_add_left (Nat.dvd_mul_right ..)] at dvd
  have zero : d = 0 := UInt64.toNat_inj.1 (Nat.eq_zero_of_dvd_of_lt dvd (Digit.toNat_lt_base d))
  rw [digits, zero, List.head?_cons]

/-- The remainder of operands that have one more digit at the bottom has one more, too. -/
theorem TwoBlocks.head?_remainder {a b : Magnitude} {n : Nat} (blocks : TwoBlocks a b n) :
    (divideTwoByOne (Digits.raise a 1) (Digits.raise b 1) (n + 1)).2.digits.head? = some 0 := by
  apply head?_digits
  rw [blocks.raise.divided.remainder, toNat_raise, toNat_raise, weight_one, Nat.mul_mod_mul_left]
  exact Nat.dvd_mul_right ..

/-- Two blocks by one have a run. An odd size is halved after it has grown, so that the measure counts
    the size rounded up to an even one. -/
theorem TwoBlocks.run {a b : Magnitude} {n : Nat} (blocks : TwoBlocks a b n) :
    TwoByOneRun a b n (divideTwoByOne a b n) := by
  rcases Nat.lt_or_ge shortQuotient (a.length - n) with many | few
  · -- half of a size of one or two is not below it
    have long := blocks.long many
    rcases Nat.even_or_odd' n with ⟨h, even | odd⟩
    · rw [Nat.two_mul] at even
      subst even
      have upper := blocks.normal.threeBlocks (toNat_block_lt blocks.lt) (toNat_block_add_lt a h)
      have lower := blocks.normal.threeBlocks upper.remainder_lt (toNat_block_zero_lt a h)
      rw [blocks.divideTwoByOne_halved many]
      exact .halved blocks many (upper.run TwoBlocks.run) (lower.run TwoBlocks.run)
        ((fitsBlock_iff ..).2 lower.quotient_lt)
    · rw [blocks.divideTwoByOne_padded many (by omega)]
      exact .padded blocks many (by omega) blocks.raise.run blocks.head?_remainder
  · rw [divideTwoByOne_short few]
    exact .short blocks few
termination_by 4 * (n + n % 2) + n % 2

/-- The recursion ends on operands that every call can rely on, and returns quotient and remainder: the
    quotient has at most `n` digits. -/
theorem two_blocks_exact {a b : Magnitude} {n : Nat} (blocks : TwoBlocks a b n) :
    (∀ x, TwoByOneRun a b n x ↔ x = divideTwoByOne a b n) ∧
      a.toNat = (divideTwoByOne a b n).1.toNat * b.toNat + (divideTwoByOne a b n).2.toNat ∧
      (divideTwoByOne a b n).2.toNat < b.toNat ∧ (divideTwoByOne a b n).1.toNat < weight n := by
  obtain ⟨law, lt⟩ := blocks.divided.law (Nat.ne_of_gt blocks.normal.full.pos)
  refine ⟨?_, law, lt, ?_⟩
  · intro x
    constructor
    · exact TwoByOneRun.eq_divideTwoByOne
    · rintro rfl
      exact blocks.run
  · rw [blocks.divided.quotient]
    exact Nat.div_lt_of_lt_mul blocks.lt

/-- An odd size with a quotient too long for long division: `base ^ 33` by half of `base ^ 17`. -/
theorem two_blocks_exact_padded :
    ∃ x, TwoByOneRun (Magnitude.ofDigits (List.replicate 33 0 ++ [1]))
      (Magnitude.ofDigits (List.replicate 16 0 ++ [0x8000000000000000])) 17 x ∧
        x.1.toNat = 2 * weight 16 ∧ x.2.toNat = 0 := by
  have blocks : TwoBlocks (Magnitude.ofDigits (List.replicate 33 0 ++ [1]))
      (Magnitude.ofDigits (List.replicate 16 0 ++ [0x8000000000000000])) 17 :=
    ⟨⟨by decide, _, rfl, by decide⟩, by decide⟩
  obtain ⟨runs, -⟩ := two_blocks_exact blocks
  refine ⟨_, (runs _).2 rfl, ?_, ?_⟩
  · rw [blocks.divided.quotient]
    decide
  · rw [blocks.divided.remainder]
    decide

end Multiprecision.Digits
