import Mathlib.Data.Nat.Dist
import Multiprecision.Proofs.BinaryFloat.Rounding

/-! Rounding to so many significant bits, seen from the two numbers with so many bits that a number lies
    between. The nearer one is taken, and half way the one with the even mantissa. A number rounded in the
    place of another gives the same, as long as none with one more bit lies between the two, unless it is
    half way itself and the other is not. -/

namespace Multiprecision

variable {p n m x y q k j : Nat}

/-- No number with so many significant bits lies between a number and the neighbour `r`, which has so
    many. -/
structure Neighbour (p n r : Nat) : Prop where
  fits : FitsBits p r
  noneBelow : ∀ y, FitsBits p y → r < y → n < y
  noneAbove : ∀ y, FitsBits p y → y < r → y < n

namespace Neighbour

variable {r : Nat} (h : Neighbour p n r) (fits : FitsBits p y)

include h fits

theorem ge_of_ge (le : y ≤ n) : y ≤ r := by
  rw [← Nat.not_lt]
  intro less
  exact Nat.not_lt.2 le (h.noneBelow y fits less)

theorem le_of_le (le : n ≤ y) : r ≤ y := by
  rw [← Nat.not_lt]
  intro less
  exact Nat.not_lt.2 le (h.noneAbove y fits less)

end Neighbour

/-- A number lies half way between its neighbours with so many significant bits. -/
def HalfWay (p n : Nat) : Prop := 2 * (n % twoTo (bitLength n - p)) = twoTo (bitLength n - p)

/-- Rounding `x` in the place of `n` is misled: `x` is half way, and is rounded away from where `n` lies. -/
def Misleads (p x n : Nat) : Prop :=
  HalfWay p x ∧ (x < n ∧ roundToBits p x < x ∨ n < x ∧ x < roundToBits p x)

/-- No number with one more significant bit lies between the two. These are the numbers that rounding can
    give and those half way between them. -/
def StandsFor (p x n : Nat) : Prop := ∀ y, FitsBits (p + 1) y → (y ≤ n → y ≤ x) ∧ (n ≤ y → x ≤ y)

theorem StandsFor.refl (n : Nat) : StandsFor p n n := fun _ _ => ⟨id, id⟩

theorem StandsFor.eq (h : StandsFor p x n) (fits : FitsBits (p + 1) n) : x = n :=
  Nat.le_antisymm ((h n fits).2 (Nat.le_refl n)) ((h n fits).1 (Nat.le_refl n))

theorem FitsBits.mono (h : FitsBits p n) (le : p ≤ q) : FitsBits q n := by
  obtain ⟨u, i, lt, rfl⟩ := h
  exact ⟨u, i, Nat.lt_of_lt_of_le lt (twoTo_le le), rfl⟩

theorem fitsBits_twoTo (pos : 0 < p) (k : Nat) : FitsBits p (twoTo k) := by
  have one : 1 < twoTo p := twoTo_le (m := 1) pos
  exact ⟨1, k, one, (Nat.one_mul _).symm⟩

theorem FitsBits.not_halfWay (h : FitsBits p n) : ¬HalfWay p n := by
  have pos := twoTo_pos (bitLength n - p)
  rw [HalfWay, Nat.mod_eq_zero_of_dvd h.dropped_dvd]
  omega

theorem FitsBits.not_misleads (h : FitsBits p x) : ¬Misleads p x n := by
  intro misled
  exact h.not_halfWay misled.1

theorem twoTo_le_of_not_fitsBits (h : ¬FitsBits p n) : twoTo p ≤ n := by
  rw [← Nat.not_lt]
  intro lt
  exact h (.of_lt lt)

/-- The places at the top stand for the whole number, if they take all the bits. -/
theorem standsFor_mul_twoTo {l : Nat} (large : twoTo p ≤ x) (lt : l < twoTo k) :
    StandsFor p (x * twoTo k) (x * twoTo k + l) := by
  intro y fits
  refine ⟨fun le => ?_, fun le => by omega⟩
  rw [← Nat.not_lt]
  intro above
  have power : twoTo (p + k) ≤ y := by
    rw [twoTo_add]
    exact Nat.le_trans (Nat.mul_le_mul_right _ large) (Nat.le_of_lt above)
  obtain ⟨u, rfl⟩ := fits.twoTo_dvd_of_le (k := k) power (by omega)
  rw [Nat.mul_comm (twoTo k)] at above le
  have more : x < u := Nat.lt_of_mul_lt_mul_right above
  have next := Nat.mul_le_mul_right (twoTo k) (Nat.add_one_le_of_lt more)
  rw [Nat.add_one_mul] at next
  omega

/-! ### From one number with so many bits to the next -/

/-- The number lies from one number with so many significant bits to the next, both included: the mantissa
    `q` takes all the bits, at the exponent `k`. -/
structure Cell (p q k n : Nat) : Prop where
  large : twoTo p ≤ 2 * q
  small : q < twoTo p
  lower : q * twoTo k ≤ n
  upper : n ≤ q * twoTo k + twoTo k

/-- A number large enough has a cell, of which it is not the end. -/
theorem exists_cell (pos : 0 < p) (large : twoTo p ≤ 2 * n) :
    ∃ q k, Cell p q k n ∧ n < q * twoTo k + twoTo k := by
  obtain ⟨s, rfl⟩ : ∃ s, p = s + 1 := ⟨p - 1, by omega⟩
  rw [twoTo_succ] at large
  have least : s < bitLength n := by
    rw [← Nat.not_le, bitLength_le_iff]
    omega
  obtain ⟨k, length⟩ : ∃ k, bitLength n = s + 1 + k := ⟨bitLength n - (s + 1), by omega⟩
  have below : n < twoTo (s + 1) * twoTo k := by
    rw [← twoTo_add, ← bitLength_le_iff]
    omega
  have above : twoTo s * twoTo k ≤ n := by
    rw [← twoTo_add, ← Nat.not_lt, ← bitLength_le_iff]
    omega
  have parts := Nat.div_add_mod' n (twoTo k)
  have rest := Nat.mod_lt n (twoTo_pos k)
  refine ⟨n / twoTo k, k, ⟨?_, ?_, ?_, ?_⟩, ?_⟩
  · rw [twoTo_succ]
    exact Nat.mul_le_mul_left 2 ((Nat.le_div_iff_mul_le (twoTo_pos k)).2 above)
  · exact Nat.div_lt_of_lt_mul (by rwa [Nat.mul_comm])
  · omega
  · omega
  · omega

namespace Cell

/-- The point half way has one bit more. -/
theorem fits_middle (h : Cell p q (k + 1) x) : FitsBits (p + 1) (q * twoTo (k + 1) + twoTo k) := by
  have small := h.small
  have middle : q * twoTo (k + 1) + twoTo k = (2 * q + 1) * twoTo k := by
    rw [twoTo_succ]
    ring
  have fits : 2 * q + 1 < twoTo (p + 1) := by
    rw [twoTo_succ]
    omega
  exact middle ▸ (FitsBits.of_lt fits).mul_twoTo k

variable (h : Cell p q k x)

include h

theorem pos : 0 < p := by
  have large := h.large
  have small := h.small
  rcases Nat.eq_zero_or_pos p with rfl | pos
  · rw [twoTo_zero] at large small
    omega
  · exact pos

theorem fits_lower : FitsBits p (q * twoTo k) := (FitsBits.of_lt h.small).mul_twoTo k

theorem fits_upper : FitsBits p (q * twoTo k + twoTo k) := by
  rw [← Nat.add_one_mul]
  rcases Nat.lt_or_eq_of_le (Nat.add_one_le_of_lt h.small) with lt | eq
  · exact (FitsBits.of_lt lt).mul_twoTo k
  · rw [eq]
    exact (fitsBits_twoTo h.pos p).mul_twoTo k

/-- The lower end of a cell is large enough for all the bits of the mantissa. -/
theorem twoTo_le_lower : twoTo (p + k) ≤ 2 * (q * twoTo k) := by
  rw [twoTo_add, ← Nat.mul_assoc]
  exact Nat.mul_le_mul_right _ h.large

/-- No number with so many significant bits lies strictly within a cell. -/
theorem le_or_le (fits : FitsBits p y) : y ≤ q * twoTo k ∨ q * twoTo k + twoTo k ≤ y := by
  rw [or_iff_not_imp_left, Nat.not_le]
  intro above
  have pos := h.pos
  have large := h.twoTo_le_lower
  obtain ⟨i, exponent⟩ : ∃ i, p + k = i + 1 := ⟨p + k - 1, by omega⟩
  rw [exponent, twoTo_succ] at large
  obtain ⟨u, rfl⟩ := fits.twoTo_dvd_of_le (j := i) (by omega) (Nat.le_of_eq exponent)
  rw [Nat.mul_comm (twoTo k)] at above ⊢
  have more : q < u := Nat.lt_of_mul_lt_mul_right above
  rw [← Nat.add_one_mul]
  exact Nat.mul_le_mul_right _ more

/-- Of a number that is not the upper end, rounding drops the places below the exponent. -/
theorem dropped (below : x < q * twoTo k + twoTo k) : bitLength x - p = k := by
  have pos := h.pos
  have lower := h.lower
  have large := h.twoTo_le_lower
  obtain ⟨i, exponent⟩ : ∃ i, p + k = i + 1 := ⟨p + k - 1, by omega⟩
  have least : i < bitLength x := by
    rw [exponent, twoTo_succ] at large
    rw [← Nat.not_le, bitLength_le_iff]
    omega
  have most : bitLength x ≤ p + k := by
    rw [← Nat.add_one_mul] at below
    rw [bitLength_le_iff, twoTo_add]
    exact Nat.lt_of_lt_of_le below (Nat.mul_le_mul_right _ h.small)
  omega

theorem div_mod (below : x < q * twoTo k + twoTo k) :
    x / twoTo k = q ∧ x % twoTo k = x - q * twoTo k := by
  have lower := h.lower
  obtain ⟨r, rfl⟩ := Nat.exists_eq_add_of_le lower
  have rest : r < twoTo k := by omega
  rw [Nat.mul_comm q, Nat.mul_add_div (twoTo_pos k), Nat.mul_add_mod, Nat.div_eq_of_lt rest,
    Nat.mod_eq_of_lt rest]
  omega

theorem halfWay_iff : HalfWay p x ↔ 2 * x = 2 * (q * twoTo k) + twoTo k := by
  have lower := h.lower
  have pos := twoTo_pos k
  rcases Nat.lt_or_eq_of_le h.upper with below | rfl
  · rw [HalfWay, h.dropped below, (h.div_mod below).2]
    omega
  · -- the upper end has more places at its end than the others
    have not := h.fits_upper.not_halfWay
    constructor
    · intro half
      exact absurd half not
    · omega

theorem round_down (lt : 2 * x < 2 * (q * twoTo k) + twoTo k) : roundToBits p x = q * twoTo k := by
  have lower := h.lower
  have below : x < q * twoTo k + twoTo k := by omega
  obtain ⟨quotient, rest⟩ := h.div_mod below
  rw [roundToBits, h.dropped below, halfEven, quotient, rest, if_pos (by omega)]

theorem round_up (lt : 2 * (q * twoTo k) + twoTo k < 2 * x) :
    roundToBits p x = q * twoTo k + twoTo k := by
  rcases Nat.lt_or_eq_of_le h.upper with below | rfl
  · obtain ⟨quotient, rest⟩ := h.div_mod below
    rw [roundToBits, h.dropped below, halfEven, quotient, rest, if_neg (by omega), if_pos (by omega),
      Nat.add_one_mul]
  · exact h.fits_upper.roundToBits_eq

theorem round_tie (eq : 2 * x = 2 * (q * twoTo k) + twoTo k) :
    roundToBits p x = (q + q % 2) * twoTo k := by
  have pos := twoTo_pos k
  have below : x < q * twoTo k + twoTo k := by omega
  obtain ⟨quotient, rest⟩ := h.div_mod below
  rw [roundToBits, h.dropped below, halfEven, quotient, rest, if_neg (by omega), if_neg (by omega)]

theorem round_eq_or_eq :
    roundToBits p x = q * twoTo k ∨ roundToBits p x = q * twoTo k + twoTo k := by
  rcases Nat.lt_trichotomy (2 * x) (2 * (q * twoTo k) + twoTo k) with down | tie | up
  · exact .inl (h.round_down down)
  · rw [h.round_tie tie, ← Nat.add_one_mul]
    rcases Nat.mod_two_eq_zero_or_one q with even | odd
    · exact .inl (by rw [even, Nat.add_zero])
    · exact .inr (by rw [odd])
  · exact .inr (h.round_up up)

theorem mul_twoTo (j : Nat) : Cell p q (k + j) (x * twoTo j) where
  large := h.large
  small := h.small
  lower := by
    rw [twoTo_add, ← Nat.mul_assoc]
    exact Nat.mul_le_mul_right _ h.lower
  upper := by
    rw [twoTo_add, ← Nat.mul_assoc, ← Nat.add_mul]
    exact Nat.mul_le_mul_right _ h.upper

end Cell

/-! ### Rounding among the numbers with so many bits -/

section Rounding

variable (pos : 0 < p)

include pos

/-- A number with fewer bits than a cell needs has few enough, and any other a cell. -/
theorem fits_or_cell (n : Nat) :
    FitsBits p n ∨ ∃ q k, Cell p q k n ∧ n < q * twoTo k + twoTo k := by
  rcases Nat.lt_or_ge (2 * n) (twoTo p) with lt | large
  · exact .inl (.of_lt (by omega))
  · exact .inr (exists_cell pos large)

theorem fitsBits_roundToBits (n : Nat) : FitsBits p (roundToBits p n) := by
  rcases fits_or_cell pos n with fits | ⟨q, k, cell, -⟩
  · rwa [fits.roundToBits_eq]
  · rcases cell.round_eq_or_eq with eq | eq
    · exact eq ▸ cell.fits_lower
    · exact eq ▸ cell.fits_upper

/-- Rounding passes over no number with so many bits. -/
theorem le_roundToBits (fits : FitsBits p y) (le : y ≤ n) : y ≤ roundToBits p n := by
  rcases fits_or_cell pos n with same | ⟨q, k, cell, below⟩
  · rwa [same.roundToBits_eq]
  · have ends := cell.round_eq_or_eq
    have outside := cell.le_or_le fits
    omega

theorem roundToBits_le (fits : FitsBits p y) (le : n ≤ y) : roundToBits p n ≤ y := by
  rcases fits_or_cell pos n with same | ⟨q, k, cell, below⟩
  · rwa [same.roundToBits_eq]
  · have lower := cell.lower
    have ends := cell.round_eq_or_eq
    rcases cell.le_or_le fits with least | most
    · obtain rfl : n = y := by omega
      exact Nat.le_of_eq fits.roundToBits_eq
    · omega

/-- No number with so many bits is nearer than the rounded one. -/
theorem dist_roundToBits_le (fits : FitsBits p y) : Nat.dist (roundToBits p n) n ≤ Nat.dist y n := by
  rcases fits_or_cell pos n with same | ⟨q, k, cell, below⟩
  · rw [same.roundToBits_eq, Nat.dist_self]
    exact Nat.zero_le _
  · have lower := cell.lower
    have ends := cell.round_eq_or_eq
    have outside := cell.le_or_le fits
    obtain ⟨notAbove, notBelow, -⟩ := halfEven_law n k
    rw [roundToBits, cell.dropped below] at ends ⊢
    rw [Nat.dist, Nat.dist]
    omega

theorem roundToBits_mul_twoTo (n j : Nat) : roundToBits p (n * twoTo j) = roundToBits p n * twoTo j := by
  rcases fits_or_cell pos n with fits | ⟨q, k, cell, -⟩
  · rw [(fits.mul_twoTo j).roundToBits_eq, fits.roundToBits_eq]
  · have scaled := cell.mul_twoTo j
    have middle : 2 * (q * twoTo (k + j)) + twoTo (k + j) = (2 * (q * twoTo k) + twoTo k) * twoTo j := by
      rw [twoTo_add]
      ring
    have double : 2 * (n * twoTo j) = 2 * n * twoTo j := (Nat.mul_assoc ..).symm
    rcases Nat.lt_trichotomy (2 * n) (2 * (q * twoTo k) + twoTo k) with down | tie | up
    · rw [cell.round_down down, scaled.round_down, twoTo_add, Nat.mul_assoc]
      rw [middle, double]
      exact Nat.mul_lt_mul_of_pos_right down (twoTo_pos j)
    · rw [cell.round_tie tie, scaled.round_tie, twoTo_add, Nat.mul_assoc]
      rw [middle, double, tie]
    · rw [cell.round_up up, scaled.round_up, twoTo_add, Nat.add_mul, Nat.mul_assoc]
      rw [middle, double]
      exact Nat.mul_lt_mul_of_pos_right up (twoTo_pos j)

/-- A number with too many bits is rounded to a multiple of four: where only one bit is dropped, it is half
    way. -/
theorem four_dvd_roundToBits (more : ¬FitsBits p n) : 4 ∣ roundToBits p n := by
  obtain ⟨q, k, cell, below⟩ := (fits_or_cell pos n).resolve_left more
  have lower := cell.lower
  have inside : n ≠ q * twoTo k := by
    intro same
    exact more (same ▸ cell.fits_lower)
  cases k with
  | zero =>
    rw [twoTo_zero] at below lower inside
    omega
  | succ k =>
    cases k with
    | zero =>
      have two : twoTo (0 + 1) = 2 := rfl
      rw [cell.round_tie (by omega), two]
      omega
    | succ k =>
      have four : twoTo (k + 1 + 1) = 4 * twoTo k := by rw [twoTo_succ, twoTo_succ, ← Nat.mul_assoc]
      rcases cell.round_eq_or_eq with eq | eq
      · rw [eq, four]
        exact (Nat.dvd_mul_right 4 _).mul_left q
      · rw [eq, four]
        exact Nat.dvd_add ((Nat.dvd_mul_right 4 _).mul_left q) (Nat.dvd_mul_right 4 _)

omit pos in
/-- The last cell below a power of two. -/
theorem twoTo_eq_top (p k : Nat) : twoTo (p + k) = (twoTo p - 1) * twoTo k + twoTo k := by
  rw [← Nat.add_one_mul, Nat.sub_add_cancel (twoTo_pos p), twoTo_add]

theorem cell_top (least : (twoTo p - 1) * twoTo k ≤ n) (most : n ≤ twoTo (p + k)) :
    Cell p (twoTo p - 1) k n := by
  have two : 2 ≤ twoTo p := twoTo_le (m := 1) pos
  rw [twoTo_eq_top] at most
  exact ⟨by omega, by omega, least, most⟩

/-- There is a gap below a power of two. -/
theorem FitsBits.add_le_twoTo (fits : FitsBits p n) (lt : n < twoTo (p + k)) :
    n + twoTo k ≤ twoTo (p + k) := by
  have top := twoTo_eq_top p k
  have cell : Cell p (twoTo p - 1) k (twoTo (p + k)) := cell_top pos (by omega) (Nat.le_refl _)
  have outside := cell.le_or_le fits
  omega

/-- The numbers that are rounded to a power of two or more begin half of the last place below it. -/
theorem twoTo_le_roundToBits_iff (n k : Nat) :
    twoTo (p + (k + 1)) ≤ roundToBits p n ↔ twoTo (p + (k + 1)) ≤ n + twoTo k := by
  have top := twoTo_eq_top p (k + 1)
  have step := twoTo_succ k
  have unit := twoTo_pos k
  rcases Nat.le_total (twoTo (p + (k + 1))) n with large | below
  · have least := le_roundToBits pos (fitsBits_twoTo pos (p + (k + 1))) large
    omega
  · rcases Nat.le_total n ((twoTo p - 1) * twoTo (k + 1)) with low | rest
    · have small : twoTo p - 1 < twoTo p := Nat.sub_lt (twoTo_pos p) Nat.one_pos
      have most := roundToBits_le pos ((FitsBits.of_lt small).mul_twoTo (k + 1)) low
      omega
    · have cell := cell_top pos rest below
      rcases Nat.lt_trichotomy (2 * n) (2 * ((twoTo p - 1) * twoTo (k + 1)) + twoTo (k + 1)) with
        down | tie | up
      · rw [cell.round_down down]
        omega
      · -- the mantissa has nothing but ones, so it is odd
        have odd : (twoTo p - 1) % 2 = 1 := by
          obtain ⟨s, rfl⟩ : ∃ s, p = s + 1 := ⟨p - 1, by omega⟩
          have unit := twoTo_pos s
          rw [twoTo_succ]
          omega
        rw [cell.round_tie tie, odd, Nat.add_one_mul]
        omega
      · rw [cell.round_up up]
        omega

/-- Whether a power of two is reached shows in the places at the top. -/
theorem twoTo_le_roundToBits_add_iff {l : Nat} (lt : l < twoTo j) :
    twoTo (p + (k + 1) + j) ≤ roundToBits p (n * twoTo j + l) ↔
      twoTo (p + (k + 1)) ≤ roundToBits p n := by
  have places : p + (k + 1) + j = p + (k + j + 1) := by omega
  rw [places, twoTo_le_roundToBits_iff pos, twoTo_le_roundToBits_iff pos, ← places, twoTo_add _ j,
    twoTo_add k j]
  constructor
  · intro le
    rw [← Nat.lt_add_one_iff]
    apply Nat.lt_of_mul_lt_mul_right (a := twoTo j)
    rw [Nat.add_one_mul, Nat.add_mul]
    omega
  · intro le
    have scaled := Nat.mul_le_mul_right (twoTo j) le
    rw [Nat.add_mul] at scaled
    omega

/-! ### Rounding one number in the place of another -/

/-- A misled rounding gives the wrong neighbour. -/
theorem Misleads.ne (h : Misleads p x n) : roundToBits p x ≠ roundToBits p n := by
  obtain ⟨half, side⟩ := h
  rcases fits_or_cell pos x with fits | ⟨q, k, cell, -⟩
  · exact absurd half fits.not_halfWay
  · -- where the number lies past half way, rounding it gives that end of the cell or passes it
    have tie := cell.halfWay_iff.1 half
    have step := twoTo_pos k
    have ends := cell.round_eq_or_eq
    rcases side with ⟨less, down⟩ | ⟨more, up⟩
    · have other : q * twoTo k + twoTo k ≤ roundToBits p n := by
        rcases Nat.le_total n (q * twoTo k + twoTo k) with le | le
        · have same : Cell p q k n := ⟨cell.large, cell.small, by omega, le⟩
          exact Nat.le_of_eq (same.round_up (by omega)).symm
        · exact le_roundToBits pos cell.fits_upper le
      omega
    · have other : roundToBits p n ≤ q * twoTo k := by
        rcases Nat.le_total n (q * twoTo k) with le | le
        · exact roundToBits_le pos cell.fits_lower le
        · have same : Cell p q k n := ⟨cell.large, cell.small, le, by omega⟩
          exact Nat.le_of_eq (same.round_down (by omega))
      omega

/-- Rounding what stands for a number gives a neighbour of it. -/
theorem StandsFor.neighbour (h : StandsFor p x n) : Neighbour p n (roundToBits p x) where
  fits := fitsBits_roundToBits pos x
  noneBelow := by
    intro y fits less
    rw [← Nat.not_le]
    intro le
    have between := le_roundToBits pos fits ((h y (fits.mono (Nat.le_succ p))).1 le)
    omega
  noneAbove := by
    intro y fits less
    rw [← Nat.not_le]
    intro le
    have between := roundToBits_le pos fits ((h y (fits.mono (Nat.le_succ p))).2 le)
    omega

theorem neighbour_roundToBits (n : Nat) : Neighbour p n (roundToBits p n) :=
  (StandsFor.refl n).neighbour pos

/-- Rounding what stands for a number rounds the number, unless it is misled. -/
theorem StandsFor.roundToBits_eq_iff (h : StandsFor p x n) :
    roundToBits p x = roundToBits p n ↔ ¬Misleads p x n := by
  refine ⟨fun same misled => misled.ne pos same, fun straight => ?_⟩
  rcases fits_or_cell pos n with fits | ⟨q, k, cell, below⟩
  · rw [h.eq (fits.mono (Nat.le_succ p))]
  · have lower := cell.lower
    cases k with
    | zero =>
      obtain rfl : n = q * twoTo 0 := by
        have one := twoTo_zero
        omega
      rw [h.eq (cell.fits_lower.mono (Nat.le_succ p))]
    | succ k =>
      -- the ends of the cell and the point half way have at most one bit more
      have middle : FitsBits (p + 1) (q * twoTo (k + 1) + twoTo k) := cell.fits_middle
      have fromBelow := (h _ (cell.fits_lower.mono (Nat.le_succ p))).1 lower
      have fromAbove := (h _ (cell.fits_upper.mono (Nat.le_succ p))).2 (Nat.le_of_lt below)
      have same : Cell p q (k + 1) x := ⟨cell.large, cell.small, fromBelow, fromAbove⟩
      have step := twoTo_succ k
      have sides := h _ middle
      rcases Nat.lt_trichotomy x (q * twoTo (k + 1) + twoTo k) with down | tie | up
      · rw [same.round_down (by omega), cell.round_down (by omega)]
      · have half : HalfWay p x := same.halfWay_iff.2 (by omega)
        have ends := same.round_eq_or_eq
        rcases Nat.lt_trichotomy x n with less | rfl | more
        · have kept : ¬roundToBits p x < x := fun away => straight ⟨half, .inl ⟨less, away⟩⟩
          rw [cell.round_up (by omega)]
          omega
        · rfl
        · have kept : ¬x < roundToBits p x := fun away => straight ⟨half, .inr ⟨more, away⟩⟩
          rw [cell.round_down (by omega)]
          omega
      · rw [same.round_up (by omega), cell.round_up (by omega)]

end Rounding

end Multiprecision
