import Multiprecision.Proofs.Digits.HalvingRuns

/-! The blocks of a dividend that is divided by halving, from the highest down. Each block is divided below
    the remainder that the blocks above it have left. Since this is below the divisor, the quotient of a
    block fits in the places of one, and joining the quotients only puts zeros between them. The shift that
    set the top bit of the divisor has multiplied the remainder too, so that the shift back drops zeros. -/

namespace Multiprecision.Digits

/-! ### Quotients in their places -/

/-- The digits `low` with a quotient above them, in `n` places. -/
def placeAbove (n : Nat) (low : Digits) (q : Magnitude) : Digits :=
  resize (low ++ q.digits) (low.length + n)

/-- The digits of quotients, the lowest first, each above the ones before it. -/
def placed (n : Nat) (qs : List Magnitude) : Digits := qs.foldl (placeAbove n) []

/-- A quotient with no more digits than places is kept whole. -/
theorem placeAbove_of_length_le {n : Nat} {q : Magnitude} (short : q.length ≤ n) (low : Digits) :
    placeAbove n low q = low ++ (q.digits ++ List.replicate (n - q.length) 0) := by
  rw [placeAbove, resize_append, resize_of_length_le short]
  rfl

theorem foldl_placeAbove (n : Nat) (low : Digits) (qs : List Magnitude) :
    qs.foldl (placeAbove n) low = low ++ placed n qs := by
  have step (low : Digits) (q : Magnitude) : placeAbove n low q = low ++ resize q.digits n :=
    resize_append low q.digits n
  induction qs generalizing low with
  | nil => exact (List.append_nil low).symm
  | cons q qs ih =>
    rw [placed, List.foldl_cons, List.foldl_cons, ih, ih (placeAbove n [] q), step, step, List.nil_append,
      List.append_assoc]

theorem placed_cons (n : Nat) (q : Magnitude) (qs : List Magnitude) :
    placed n (q :: qs) = resize q.digits n ++ placed n qs := by
  rw [placed, List.foldl_cons, foldl_placeAbove, placeAbove, resize_append, List.nil_append]

/-! ### The runs -/

/-- The runs over blocks of `n` digits, the highest first: from the remainder that is carried into the first
    one to the quotients, in the same order, and the remainder that is left. -/
inductive BlocksRun (b : Magnitude) (n : Nat) :
    Magnitude → List Digits → List Magnitude → Magnitude → Prop
  | done {r : Magnitude} (carried : r.toNat < b.toNat) : BlocksRun b n r [] [] r
  | next {r left : Magnitude} {c : Digits} {cs : List Digits} {x : Magnitude × Magnitude}
      {qs : List Magnitude} (carried : r.toNat < b.toNat) (fits : FitsBlock c n)
      (divided : TwoByOneRun (joinBlocks r c n) b n x) (short : x.1.length ≤ n)
      (rest : BlocksRun b n x.2 cs qs left) : BlocksRun b n r (c :: cs) (x.1 :: qs) left

namespace BlocksRun

variable {b r left : Magnitude} {n : Nat} {cs : List Digits} {qs : List Magnitude}

/-- A run goes on with what is left. -/
theorem append {left' : Magnitude} {cs' : List Digits} {qs' : List Magnitude}
    (run : BlocksRun b n r cs qs left) (run' : BlocksRun b n left cs' qs' left') :
    BlocksRun b n r (cs ++ cs') (qs ++ qs') left' := by
  induction run with
  | done carried => exact run'
  | next carried fits divided short rest ih => exact .next carried fits divided short (ih run')

theorem length_eq (run : BlocksRun b n r cs qs left) : qs.length = cs.length := by
  induction run with
  | done carried => rfl
  | next carried fits divided short rest ih => rw [List.length_cons, List.length_cons, ih]

/-- No quotient has more digits than a block. -/
theorem length_le (run : BlocksRun b n r cs qs left) : ∀ q ∈ qs, q.length ≤ n := by
  induction run with
  | done carried => simp
  | next carried fits divided short rest ih => exact List.forall_mem_cons.2 ⟨short, ih⟩

end BlocksRun

/-! ### Blocks and runs -/

section Blocks

variable {b : Magnitude} {n : Nat}

/-- A block below a remainder makes two blocks by one with the divisor. -/
theorem TopBitSet.twoBlocks {r : Magnitude} {c : Digits} (normal : TopBitSet b n) (fits : FitsBlock c n)
    (carried : r.toNat < b.toNat) : TwoBlocks (joinBlocks r c n) b n :=
  ⟨normal, toNat_joinBlocks_lt ((length_trim_le_iff c n).1 fits) carried⟩

/-- What is left of blocks is below the divisor. -/
theorem divideBlocks_lt (normal : TopBitSet b n) {cs : List Digits} (fit : ∀ c ∈ cs, c.length ≤ n) :
    (divideBlocks b n cs).2.toNat < b.toNat := by
  rw [(divideBlocks_spec normal.full fit).2]
  exact Nat.mod_lt _ normal.full.pos

/-- Blocks have a run from nothing carried, and its quotients in their places are the ones found. -/
theorem exists_blocksRun (normal : TopBitSet b n) {cs : List Digits} (fit : ∀ c ∈ cs, c.length ≤ n) :
    ∃ qs, BlocksRun b n Magnitude.zero cs.reverse qs (divideBlocks b n cs).2 ∧
      (divideBlocks b n cs).1 = placed n qs.reverse := by
  induction cs with
  | nil => exact ⟨[], .done normal.full.pos, rfl⟩
  | cons c cs ih =>
    rw [List.forall_mem_cons] at fit
    obtain ⟨qs, run, digits⟩ := ih fit.2
    have carried := divideBlocks_lt normal fit.2
    have fits : FitsBlock c n :=
      (length_trim_le_iff c n).2 (Nat.lt_of_lt_of_le (value_lt c) (weight_mono fit.1))
    have blocks := normal.twoBlocks fits carried
    -- the lowest block is the last one of the run
    have whole := run.append (.next carried fits blocks.run blocks.length_quotient_le
      (.done blocks.remainder_lt))
    rw [← List.reverse_cons] at whole
    refine ⟨_, whole, ?_⟩
    rw [List.reverse_append, List.reverse_singleton, List.singleton_append, placed_cons, ← digits]
    rfl

end Blocks

/-! ### The whole division -/

/-- A division in blocks that loses nothing, with the quotients of the blocks, the highest first, and the
    remainder that they leave. -/
structure ExactBlocks (as bs : Digits) (qs : List Magnitude) (r : Magnitude) : Prop where
  /-- The shifted divisor is as long as the divisor without zeros at its top, and has its top bit set. -/
  normal : TopBitSet (blockDivisor bs) (trim bs).length
  divisor : (blockDivisor bs).toNat = value bs * twoTo (normalShift (trim bs))
  dividend : value (dividendBlocks as bs).flatten = value as * twoTo (normalShift (trim bs))
  run : BlocksRun (blockDivisor bs) (trim bs).length Magnitude.zero (dividendBlocks as bs).reverse qs r
  /-- Each quotient is padded in its place, and never cut off. -/
  padded : ∀ q ∈ qs, ∀ low : Digits,
    resize (low ++ q.digits) (low.length + (trim bs).length) =
      low ++ (q.digits ++ List.replicate ((trim bs).length - q.length) 0)
  quotient : value (placed (trim bs).length qs.reverse) = value as / value bs
  remainder : r.toNat = value as % value bs * twoTo (normalShift (trim bs))
  divisible : twoTo (normalShift (trim bs)) ∣ r.toNat
  /-- The bits that the shift back takes out of the lowest digit are zeros. -/
  dropped : normalShift (trim bs) ≠ 0 → (shiftDownTo (normalShift (trim bs)) r.digits).2 = 0
  result : halvingDivide as bs = .ok (Magnitude.ofDigits (placed (trim bs).length qs.reverse),
    Magnitude.ofDigits (shiftDown (normalShift (trim bs)) r.digits))

/-- The shift sets the top bit of the divisor and takes no more places. -/
theorem topBitSet_blockDivisor {bs : Digits} (nonzero : value bs ≠ 0) :
    TopBitSet (blockDivisor bs) (trim bs).length := by
  obtain ⟨-, high, fits⟩ := normalShift_spec (trim_ne_nil nonzero) (getLast?_trim bs)
  rw [value_trim] at high fits
  rw [topBitSet_iff, toNat_blockDivisor nonzero]
  exact ⟨high, fits⟩

/-- A shift down by bits that are all zero drops none that is set. -/
theorem snd_shiftDownTo_eq_zero {n : Nat} (pos : 0 < n) (h : n < Digit.bits) {ds : Digits}
    (dvd : twoTo n ∣ value ds) : (shiftDownTo n ds).2 = 0 := by
  obtain ⟨-, law⟩ := shiftDownTo_law pos h ds
  rw [Nat.mod_eq_zero_of_dvd dvd, Nat.mul_zero] at law
  exact UInt64.toNat_inj.1 law

/-- Division in blocks loses nothing, for any dividend that is not below the divisor, whatever zeros either
    has at the top. -/
theorem exact_blocks {as bs : Digits} (pos : 0 < value bs) (le : value bs ≤ value as) :
    ∃ qs r, ExactBlocks as bs qs r := by
  have nonzero := Nat.ne_of_gt pos
  have small := normalShift_trim_lt nonzero
  have normal := topBitSet_blockDivisor nonzero
  have whole := halvingDivideNonzero_of_le le
  have fit := length_le_of_mem_dividendBlocks as bs
  obtain ⟨quotient, remainder⟩ := divideBlocks_dividendBlocks nonzero as
  rw [normal.length] at fit quotient remainder whole
  obtain ⟨qs, run, digits⟩ := exists_blocksRun normal fit
  rw [digits] at quotient whole
  have divisible := Dvd.intro_left _ remainder.symm
  refine ⟨qs, _, normal, toNat_blockDivisor nonzero, ?_, run, ?_, quotient, remainder, divisible, ?_, ?_⟩
  · rw [dividendBlocks, flatten_chunks, value_shiftUp small, value_trim]
  · intro q mem low
    exact placeAbove_of_length_le (run.length_le q mem) low
  · intro shifted
    exact snd_shiftDownTo_eq_zero (Nat.pos_of_ne_zero shifted) small divisible
  · rw [halvingDivide, if_neg (mt (isZero_iff bs).1 nonzero), whole]

/-- A dividend that the shift makes longer by one digit, which is a block of its own. -/
theorem exact_blocks_short_top :
    0 < value [9, 1, 0] ∧ value [9, 1, 0] ≤ value [5, 0, 7, 3] ∧
      ∃ qs r, ExactBlocks [5, 0, 7, 3] [9, 1, 0] qs r ∧ qs.length = 3 ∧
        r.toNat = (2 ^ 64 - 1606) * 2 ^ 63 := by
  have pos : 0 < value [9, 1, 0] := by decide
  have le : value [9, 1, 0] ≤ value [5, 0, 7, 3] := by decide
  obtain ⟨qs, r, exact⟩ := exact_blocks pos le
  have two : (blockDivisor [9, 1, 0]).length = 2 := exact.normal.length.trans (by decide)
  have shifted : shiftUp (normalShift (trim [9, 1, 0])) (trim [5, 0, 7, 3]) =
      [0x8000000000000000, 2, 0x8000000000000000, 0x8000000000000003, 1] := by decide
  refine ⟨pos, le, qs, r, exact, ?_, ?_⟩
  · rw [exact.run.length_eq, List.length_reverse, dividendBlocks, two, shifted]
    simp [chunks]
  · rw [exact.remainder]
    decide

end Multiprecision.Digits
