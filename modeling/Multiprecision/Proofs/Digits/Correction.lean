import Multiprecision.Proofs.Digits.RecursiveDivision

/-! Three blocks by two, with a bounded correction. The quotient by the upper half of the divisor is never
    too small, and where the top bit of the divisor is set it is too large by two at most: the product
    with the lower half is below the weight of two blocks, which two divisors make up. So the correction
    adds the divisor back at most twice. -/

namespace Multiprecision.Digits

/-! ### Normalized divisors -/

/-- A divisor of exactly `n` digits whose top bit is set. -/
structure TopBitSet (b : Magnitude) (n : Nat) : Prop where
  length : b.length = n
  topBit : ∃ d, b.digits.getLast? = some d ∧ Digit.base ≤ 2 * d.toNat

/-- A divisor of `n` digits has its top bit set exactly when it is at least half their weight. -/
theorem topBitSet_iff (b : Magnitude) (n : Nat) :
    TopBitSet b n ↔ weight n ≤ 2 * b.toNat ∧ b.toNat < weight n := by
  obtain ⟨low, d, digits⟩ : ∃ low d, b.digits = low ++ [d] := by
    obtain ⟨low, d, eq⟩ := (List.eq_nil_or_concat b.digits).resolve_left b.normal.1
    exact ⟨low, d, eq.trans (List.concat_eq_append ..)⟩
  have last : b.digits.getLast? = some d := by rw [digits, List.getLast?_concat]
  have large := base_le_two_mul_iff low d
  rw [← digits] at large
  constructor
  · rintro ⟨rfl, e, top, high⟩
    obtain rfl : d = e := Option.some.inj (last.symm.trans top)
    exact ⟨large.1 high, b.toNat_lt_weight⟩
  · rintro ⟨high, fits⟩
    have pos : 0 < n := by
      apply Nat.pos_of_ne_zero
      rintro rfl
      rw [weight_zero] at high fits
      omega
    have same : b.length = n := by
      apply Nat.le_antisymm ((b.length_le_iff pos).2 fits)
      apply Nat.le_of_not_lt
      intro less
      have next := weight_mono less
      have below := b.toNat_lt_weight
      rw [weight_succ] at next
      simp only [Digit.base] at next
      omega
    refine ⟨same, d, last, large.2 ?_⟩
    rw [← same] at high
    exact high

namespace TopBitSet

variable {b : Magnitude} {n : Nat}

theorem full (normal : TopBitSet b n) : Full b n := by
  obtain ⟨high, fits⟩ := (topBitSet_iff b n).1 normal
  exact ⟨Nat.le_trans high (Nat.mul_le_mul_right _ (by decide)), fits⟩

theorem raise (normal : TopBitSet b n) : TopBitSet (raise b 1) (n + 1) := by
  obtain ⟨high, fits⟩ := (topBitSet_iff b n).1 normal
  rw [topBitSet_iff, toNat_raise, weight_one, weight_succ, Nat.mul_left_comm]
  exact ⟨Nat.mul_le_mul_left _ high, Nat.mul_lt_mul_of_pos_left fits base_pos⟩

/-- The upper half has the top bit. -/
theorem upper {h : Nat} (normal : TopBitSet b (h + h)) : TopBitSet (block b h b.length) h := by
  obtain ⟨high, fits⟩ := (topBitSet_iff b (h + h)).1 normal
  rw [weight_add] at high fits
  have even : ∃ m, weight h = 2 * m := by
    have pos : 0 < b.length := b.length_pos
    rw [normal.length] at pos
    obtain ⟨k, rfl⟩ := Nat.exists_eq_add_one_of_ne_zero (n := h) (by omega)
    exact ⟨2 ^ 63 * weight k, by rw [weight_succ, ← Nat.mul_assoc]; rfl⟩
  obtain ⟨m, half⟩ := even
  have large : m ≤ b.toNat / weight h := by
    rw [Nat.le_div_iff_mul_le (weight_pos h)]
    apply Nat.le_of_mul_le_mul_left _ (Nat.zero_lt_two)
    rw [← Nat.mul_assoc, ← half]
    exact high
  rw [topBitSet_iff, toNat_block_length]
  refine ⟨?_, Nat.div_lt_of_lt_mul fits⟩
  calc weight h = 2 * m := half
    _ ≤ 2 * (b.toNat / weight h) := Nat.mul_le_mul_left 2 large

end TopBitSet

/-! ### The loop -/

/-- The runs of the correction, with the number of steps: while the remainder is negative the divisor is
    added to it, and one is taken from a quotient that is not zero. -/
inductive Corrections (b : Magnitude) :
    Magnitude → Sign → Magnitude → Nat → Magnitude × Magnitude → Prop
  | done {q : Magnitude} {s : Sign} {r : Magnitude} (notNegative : s ≠ .negative) :
      Corrections b q s r 0 (q, r)
  | step {q r : Magnitude} {k : Nat} {x : Magnitude × Magnitude} (enough : 1 ≤ q.toNat)
      (rest : Corrections b (subtract q.digits [1]).2 (subtract b.digits r.digits).1
        (subtract b.digits r.digits).2 k x) :
      Corrections b q .negative r (k + 1) x

section Loop

variable {b q r : Magnitude} {s : Sign} {k : Nat}

theorem correct_of_ne (notNegative : s ≠ .negative) : correct b q s r = (q, r) := by
  rw [correct, dif_neg (fun h => notNegative h.1)]

theorem correct_negative (pos : 0 < b.toNat) :
    correct b q .negative r =
      correct b (subtract q.digits [1]).2 (subtract b.digits r.digits).1 (subtract b.digits r.digits).2 := by
  have nonzero : b.isZero = false := by
    rw [← Bool.not_eq_true, Magnitude.isZero_iff]
    exact Nat.ne_of_gt pos
  conv => lhs; rw [correct, dif_pos ⟨rfl, nonzero⟩]

/-- A run by a divisor that is not zero has the result of the loop. -/
theorem Corrections.eq_correct {x : Magnitude × Magnitude} (run : Corrections b q s r k x)
    (pos : 0 < b.toNat) : x = correct b q s r := by
  induction run with
  | done notNegative => exact (correct_of_ne notNegative).symm
  | step enough rest ih => rw [ih, correct_negative pos]

/-- A remainder that `k` divisors make up for takes at most `k` steps. -/
theorem exists_corrections {t : Nat} (pending : Pending b q s r t) (pos : 0 < b.toNat)
    (above : -(k * b.toNat : Int) ≤ s.toInt * r.toNat) :
    ∃ j ≤ k, Corrections b q s r j (correct b q s r) := by
  induction k generalizing q s r with
  | zero =>
    have notNegative : s ≠ .negative := by
      rintro rfl
      have rpos := pending.toNat_pos
      rw [Sign.toInt] at above
      omega
    rw [correct_of_ne notNegative]
    exact ⟨0, Nat.le_refl 0, .done notNegative⟩
  | succ k ih =>
    by_cases negative : s = .negative
    · subst negative
      have moved : (subtract b.digits r.digits).1.toInt * (subtract b.digits r.digits).2.toNat =
          (b.toNat : Int) - r.toNat := toInt_subtract ..
      have next : -(k * b.toNat : Int) ≤
          (subtract b.digits r.digits).1.toInt * (subtract b.digits r.digits).2.toNat := by
        rw [moved]
        rw [Sign.toInt] at above
        push_cast at above
        linarith
      obtain ⟨j, le, run⟩ := ih pending.next next
      rw [correct_negative pos]
      exact ⟨j + 1, Nat.succ_le_succ le, .step pending.quotient_pos run⟩
    · rw [correct_of_ne negative]
      exact ⟨0, Nat.zero_le _, .done negative⟩

end Loop

/-! ### Three blocks by two -/

/-- Three blocks of `n` digits and a divisor of two whose top bit is set, where the two upper blocks are
    below the divisor. -/
structure ThreeBlocks (a₁₂ a₃ b b₁ b₂ : Magnitude) (n : Nat) : Prop where
  normal : TopBitSet b₁ n
  parts : b.toNat = b₂.toNat + weight n * b₁.toNat
  short : b₂.toNat < weight n
  below : a₁₂.toNat < b.toNat
  lower : a₃.toNat < weight n

namespace ThreeBlocks

variable {a₁₂ a₃ b b₁ b₂ : Magnitude} {n : Nat} (blocks : ThreeBlocks a₁₂ a₃ b b₁ b₂ n)

include blocks

theorem pos : 0 < b.toNat := Nat.zero_lt_of_lt blocks.below

/-- Quotient and remainder by the upper half, where they are not saturated. -/
theorem divided_upper (differ : block a₁₂ n a₁₂.length ≠ b₁) :
    Divided a₁₂.toNat b₁.toNat (divideTwoByOne a₁₂ b₁ n) :=
  divideTwoByOne_spec blocks.normal.full (lt_of_block_ne blocks.parts blocks.short blocks.below differ)

theorem divided : Divided (a₃.toNat + weight n * a₁₂.toNat) b.toNat (divideThreeByTwo a₁₂ a₃ b b₁ b₂ n) :=
  divideThreeByTwo_spec blocks.parts blocks.short blocks.below blocks.lower
    (divideTwoByOne_spec blocks.normal.full) blocks.normal.full.pos

theorem pending : Pending b (upperQuotient a₁₂ b₁ n).1
    (firstRemainder a₃ b₂ n (upperQuotient a₁₂ b₁ n)).1
    (firstRemainder a₃ b₂ n (upperQuotient a₁₂ b₁ n)).2 (a₃.toNat + weight n * a₁₂.toNat) := by
  obtain ⟨law, notSmall⟩ := upperQuotient_spec blocks.parts blocks.short blocks.below blocks.lower
    (divideTwoByOne_spec blocks.normal.full) blocks.normal.full.pos
  exact pending_firstRemainder blocks.parts blocks.lower law notSmall

omit blocks in
/-- The saturated quotient is the largest of `n` digits. -/
theorem toNat_saturated (same : block a₁₂ n a₁₂.length = b₁) :
    (upperQuotient a₁₂ b₁ n).1.toNat + 1 = weight n := by
  rw [upperQuotient, if_pos same, Magnitude.toNat_ofDigits, value_replicate_max]

/-- The quotient by the upper half has at most `n` digits. -/
theorem upperQuotient_lt : (upperQuotient a₁₂ b₁ n).1.toNat < weight n := by
  by_cases same : block a₁₂ n a₁₂.length = b₁
  · exact Nat.lt_of_succ_le (Nat.le_of_eq (toNat_saturated same))
  · have fits := lt_of_block_ne blocks.parts blocks.short blocks.below same
    rw [upperQuotient, if_neg same, (blocks.divided_upper same).quotient]
    exact Nat.div_lt_of_lt_mul fits

/-- The product with the lower half is below two divisors, and so what is left first is above their
    negative. -/
theorem neg_le_firstRemainder : -((2 : Nat) * b.toNat : Int) ≤
    (firstRemainder a₃ b₂ n (upperQuotient a₁₂ b₁ n)).1.toInt *
      (firstRemainder a₃ b₂ n (upperQuotient a₁₂ b₁ n)).2.toNat := by
  obtain ⟨high, -⟩ := (topBitSet_iff b₁ n).1 blocks.normal
  have product : (upperQuotient a₁₂ b₁ n).1.toNat * b₂.toNat ≤ 2 * b.toNat := calc
    (upperQuotient a₁₂ b₁ n).1.toNat * b₂.toNat ≤ weight n * weight n :=
      Nat.mul_le_mul (Nat.le_of_lt blocks.upperQuotient_lt) (Nat.le_of_lt blocks.short)
    _ ≤ weight n * (2 * b₁.toNat) := Nat.mul_le_mul_left _ high
    _ = 2 * (weight n * b₁.toNat) := Nat.mul_left_comm ..
    _ ≤ 2 * b.toNat := Nat.mul_le_mul_left _ (blocks.parts ▸ Nat.le_add_left ..)
  rw [toInt_firstRemainder blocks.lower]
  omega

/-- The correction takes at most two steps. -/
theorem exists_corrections_le_two : ∃ k ≤ 2, Corrections b (upperQuotient a₁₂ b₁ n).1
    (firstRemainder a₃ b₂ n (upperQuotient a₁₂ b₁ n)).1
    (firstRemainder a₃ b₂ n (upperQuotient a₁₂ b₁ n)).2 k (divideThreeByTwo a₁₂ a₃ b b₁ b₂ n) := by
  rw [divideThreeByTwo_eq]
  exact exists_corrections blocks.pending blocks.pos blocks.neg_le_firstRemainder

theorem remainder_lt : (divideThreeByTwo a₁₂ a₃ b b₁ b₂ n).2.toNat < b.toNat := by
  rw [blocks.divided.remainder]
  exact Nat.mod_lt _ blocks.pos

/-- The quotient has at most `n` digits. -/
theorem quotient_lt : (divideThreeByTwo a₁₂ a₃ b b₁ b₂ n).1.toNat < weight n := by
  have above := Nat.mul_le_mul_left (weight n) blocks.below
  have lower := blocks.lower
  rw [Nat.mul_succ] at above
  rw [blocks.divided.quotient]
  refine Nat.div_lt_of_lt_mul ?_
  rw [Nat.mul_comm b.toNat]
  omega

end ThreeBlocks

/-- Three blocks by two are divided exactly, from a quotient by the upper half that is corrected at most
    twice and is not zero where it is; a quotient that would not fit starts as the largest that does. -/
theorem three_blocks_exact {a₁₂ a₃ b b₁ b₂ : Magnitude} {n : Nat}
    (blocks : ThreeBlocks a₁₂ a₃ b b₁ b₂ n) :
    a₁₂.toNat * weight n + a₃.toNat =
        (divideThreeByTwo a₁₂ a₃ b b₁ b₂ n).1.toNat * b.toNat +
          (divideThreeByTwo a₁₂ a₃ b b₁ b₂ n).2.toNat ∧
      (divideThreeByTwo a₁₂ a₃ b b₁ b₂ n).2.toNat < b.toNat ∧
      (divideThreeByTwo a₁₂ a₃ b b₁ b₂ n).1.toNat < weight n ∧
      (∃ k ≤ 2, Corrections b (upperQuotient a₁₂ b₁ n).1
        (firstRemainder a₃ b₂ n (upperQuotient a₁₂ b₁ n)).1
        (firstRemainder a₃ b₂ n (upperQuotient a₁₂ b₁ n)).2 k (divideThreeByTwo a₁₂ a₃ b b₁ b₂ n)) ∧
      (block a₁₂ n a₁₂.length = b₁ → (upperQuotient a₁₂ b₁ n).1.toNat = weight n - 1) := by
  obtain ⟨law, lt⟩ := blocks.divided.law (Nat.ne_of_gt blocks.pos)
  refine ⟨?_, lt, blocks.quotient_lt, blocks.exists_corrections_le_two, ?_⟩
  · rw [← law, Nat.add_comm, Nat.mul_comm]
  · intro same
    exact Nat.eq_sub_of_add_eq (ThreeBlocks.toNat_saturated same)

/-- A division whose correction takes both of its steps: the quotient by the upper half is `2^64 - 1`. -/
theorem three_blocks_exact_corrected_twice :
    (upperQuotient (Magnitude.ofDigits [0x8000000000000000, 0x7FFFFFFFFFFFFFFF])
      (Magnitude.ofDigits [0x8000000000000000]) 1).1.toNat = 2 ^ 64 - 1 ∧
    (divideThreeByTwo (Magnitude.ofDigits [0x8000000000000000, 0x7FFFFFFFFFFFFFFF])
      Magnitude.zero (Magnitude.ofDigits [0xFFFFFFFFFFFFFFFF, 0x8000000000000000])
      (Magnitude.ofDigits [0x8000000000000000]) (Magnitude.ofDigits [0xFFFFFFFFFFFFFFFF]) 1).1.toNat =
        2 ^ 64 - 3 := by
  have a : (Magnitude.ofDigits [0x8000000000000000, 0x7FFFFFFFFFFFFFFF]).toNat = (2 ^ 64 - 1) * 2 ^ 63 := by
    decide
  have b : (Magnitude.ofDigits [0xFFFFFFFFFFFFFFFF, 0x8000000000000000]).toNat = 2 ^ 127 + 2 ^ 64 - 1 := by
    decide
  have blocks : ThreeBlocks (Magnitude.ofDigits [0x8000000000000000, 0x7FFFFFFFFFFFFFFF])
      Magnitude.zero (Magnitude.ofDigits [0xFFFFFFFFFFFFFFFF, 0x8000000000000000])
      (Magnitude.ofDigits [0x8000000000000000]) (Magnitude.ofDigits [0xFFFFFFFFFFFFFFFF]) 1 :=
    ⟨⟨by decide, _, rfl, by decide⟩, by decide, by decide, by decide, by decide⟩
  refine ⟨by decide +kernel, ?_⟩
  obtain ⟨law, lt, -⟩ := three_blocks_exact blocks
  have zero : Magnitude.zero.toNat = 0 := rfl
  generalize divideThreeByTwo _ _ _ _ _ _ = x at law lt ⊢
  rw [a, b, zero, weight_one, Digit.base] at law
  rw [b] at lt
  omega

end Multiprecision.Digits
