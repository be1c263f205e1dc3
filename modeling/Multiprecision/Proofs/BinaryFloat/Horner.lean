import Multiprecision.Proofs.BinaryFloat.Digits
import Multiprecision.Proofs.BinaryFloat.Neighbours

/-! The number of digits in a format. Every step from the top down multiplies by the base, adds the next
    digit and rounds, so that a number is rounded once for each of its digits. From the third digit on
    nothing more changes; what the two digits at the top give is one rounding of a number that stands for
    all of the digits. So the outcome is a neighbour of their value, and the nearest one unless a rounding
    on the way was misled. -/

namespace Multiprecision.BinaryFloat

variable {p : Nat} {f : Format}

/-- The number of the digits, where every step is rounded to so many significant bits. -/
def horner (p : Nat) : Digits → Nat
  | [] => 0
  | d :: ds => roundToBits p (roundToBits p (horner p ds * Digit.base) + roundToBits p d.toNat)

/-- The rounding of the top digit, in the place of all the digits, is misled, or that of the two digits at
    the top is. -/
def Misled (p : Nat) (ds : Digits) : Prop :=
  ∃ low b a, Digits.trim ds = low ++ [b, a] ∧
    (Misleads p (a.toNat * Digits.weight (low.length + 1)) (Digits.value ds) ∨
      Misleads p ((roundToBits p a.toNat * Digit.base + roundToBits p b.toNat) * Digits.weight low.length)
        (Digits.value ds))

theorem weight_eq (n : Nat) : Digits.weight n = twoTo (Digit.bits * n) := (Nat.pow_mul 2 Digit.bits n).symm

section Steps

variable (pos : 0 < p)

include pos

theorem fitsBits_base : FitsBits p Digit.base := fitsBits_twoTo pos Digit.bits

theorem roundToBits_digit_le {d : Nat} (lt : d < Digit.base) : roundToBits p d ≤ Digit.base :=
  roundToBits_le pos (fitsBits_base pos) (Nat.le_of_lt lt)

theorem fitsBits_horner (ds : Digits) : FitsBits p (horner p ds) := by
  cases ds with
  | nil => exact .of_lt (twoTo_pos p)
  | cons d ds => exact fitsBits_roundToBits pos _

/-- The product with the base is not rounded. -/
theorem horner_cons (d : Digit) (ds : Digits) :
    horner p (d :: ds) = roundToBits p (horner p ds * Digit.base + roundToBits p d.toNat) := by
  have product := ((fitsBits_horner pos ds).mul_twoTo Digit.bits).roundToBits_eq
  rw [horner, ← twoTo_bits, product]

theorem horner_singleton (d : Digit) : horner p [d] = roundToBits p d.toNat := by
  rw [horner_cons pos, horner, Nat.zero_mul, Nat.zero_add, (fitsBits_roundToBits pos _).roundToBits_eq]

/-- Zeros at the top change nothing. -/
theorem horner_trim (ds : Digits) : horner p (Digits.trim ds) = horner p ds := by
  induction ds with
  | nil => rfl
  | cons d ds ih =>
    rw [Digits.trim]
    split
    · next none =>
      rw [none] at ih
      split
      · next zero =>
        have nothing : roundToBits p (0 : Digit).toNat = 0 := roundToBits_zero p
        rw [zero, horner_cons pos, ← ih, nothing, horner, Nat.zero_mul, roundToBits_zero]
      · rw [horner_cons pos, horner_cons pos, ih]
    · next some => rw [← some, horner_cons pos, horner_cons pos, ih]

/-! ### Digits that change nothing -/

/-- A digit below a mantissa that takes all the bits is lost: half the last place is at least the base, and
    where it is the base the mantissa is even. -/
theorem roundToBits_add_digit {x y : Nat} (fits : FitsBits p x) (large : twoTo p ≤ x) (four : 4 ∣ x)
    (le : y ≤ Digit.base) : roundToBits p (x * Digit.base + y) = x * Digit.base := by
  obtain ⟨q, k, cell, below⟩ := exists_cell (n := x) pos (by omega)
  have lower := cell.lower
  obtain rfl : x = q * twoTo k := by
    have outside := cell.le_or_le fits
    omega
  cases k with
  | zero =>
    have small := cell.small
    rw [twoTo_zero] at large
    omega
  | succ k =>
    have unit := twoTo_pos k
    have step : twoTo (k + 1 + Digit.bits) = 2 * (twoTo k * Digit.base) := by
      rw [twoTo_add, twoTo_succ, twoTo_bits, Nat.mul_assoc]
    have most : Digit.base ≤ twoTo k * Digit.base := Nat.le_mul_of_pos_left _ unit
    have scaled : q * twoTo (k + 1) * Digit.base = q * twoTo (k + 1 + Digit.bits) := by
      rw [twoTo_add (k + 1), twoTo_bits, Nat.mul_assoc]
    have wide : Cell p q (k + 1 + Digit.bits) (q * twoTo (k + 1) * Digit.base + y) :=
      ⟨cell.large, cell.small, by omega, by omega⟩
    rw [scaled] at wide ⊢
    rcases Nat.lt_or_ge y (twoTo k * Digit.base) with down | tie
    · exact wide.round_down (by omega)
    · have even : q % 2 = 0 := by
        have one : twoTo k ≤ 1 := by
          apply Nat.le_of_mul_le_mul_right _ Digits.base_pos
          omega
        rw [twoTo_succ, Nat.le_antisymm one unit] at four
        omega
      rw [wide.round_tie (by omega), even, Nat.add_zero]

/-- Above two bits more than the mantissa has, all further digits are lost. -/
theorem horner_append (low : Digits) {high : Digits} (large : twoTo (p + 1) ≤ horner p high) :
    horner p (low ++ high) = horner p high * Digits.weight low.length := by
  induction low with
  | nil => rw [List.nil_append, List.length_nil, Digits.weight_zero, Nat.mul_one]
  | cons d low ih =>
    have weight : 0 < Digits.weight low.length := Digits.weight_pos _
    have most : twoTo (p + 1) ≤ horner p (low ++ high) := by
      rw [ih]
      exact Nat.le_trans large (Nat.le_mul_of_pos_right _ weight)
    have fits := fitsBits_horner pos (low ++ high)
    have four : twoTo 2 ∣ horner p (low ++ high) := fits.twoTo_dvd_of_le most (by omega)
    have least : twoTo p ≤ horner p (low ++ high) := Nat.le_trans (twoTo_le (Nat.le_succ p)) most
    rw [List.cons_append, horner_cons pos,
      roundToBits_add_digit pos fits least four (roundToBits_digit_le pos d.toNat_lt_base), ih,
      List.length_cons, Digits.weight_succ, Nat.mul_assoc, Nat.mul_comm Digit.base]

/-! ### The digits at the top -/

/-- Rounding a digit does not take it past a number with so many bits in its highest places. -/
theorem roundToBits_digit_grid {b g : Nat} (bits : Digit.bits = p + g) (digit : b < Digit.base) (v : Nat) :
    (v * twoTo g ≤ b → v * twoTo g ≤ roundToBits p b) ∧
      (b ≤ v * twoTo g → roundToBits p b ≤ v * twoTo g) := by
  rcases Nat.lt_or_ge v (twoTo p) with less | more
  · have fits : FitsBits p (v * twoTo g) := (FitsBits.of_lt less).mul_twoTo g
    exact ⟨le_roundToBits pos fits, roundToBits_le pos fits⟩
  · have past := Nat.mul_le_mul_right (twoTo g) more
    have most := roundToBits_digit_le pos digit
    rw [← twoTo_add, ← bits, twoTo_bits] at past
    omega

/-- A digit rounded below a top digit that is not: the two stand for the whole. -/
theorem standsFor_second {a b l i : Nat} (few : p ≤ Digit.bits) (some : 0 < a) (digit : b < Digit.base)
    (lt : l < twoTo i) :
    StandsFor p ((a * Digit.base + roundToBits p b) * twoTo i) ((a * Digit.base + b) * twoTo i + l) := by
  obtain ⟨g, bits⟩ := Nat.exists_eq_add_of_le few
  have base : Digit.base = twoTo p * twoTo g := by rw [← twoTo_add, ← bits, twoTo_bits]
  intro y fits
  rw [Nat.add_mul, Nat.add_mul]
  rcases Nat.le_total y (a * Digit.base * twoTo i) with below | above
  · refine ⟨fun _ => by omega, fun le => ?_⟩
    obtain rfl : b = 0 := by
      have nothing : b * twoTo i = 0 := by omega
      exact (Nat.mul_eq_zero.1 nothing).resolve_right (Nat.ne_of_gt (twoTo_pos i))
    rw [roundToBits_zero]
    omega
  · -- so large, a number with one bit more has nothing but zeros below the places that rounding can keep
    have power : twoTo (Digit.bits + i) ≤ y := by
      rw [twoTo_add, twoTo_bits]
      refine Nat.le_trans (Nat.mul_le_mul_right _ ?_) above
      exact Nat.le_mul_of_pos_left _ some
    obtain ⟨u, rfl⟩ := fits.twoTo_dvd_of_le (k := g + i) power (by omega)
    obtain ⟨v, same⟩ : ∃ v, twoTo (g + i) * u = a * Digit.base * twoTo i + v * twoTo g * twoTo i := by
      have unit : twoTo (g + i) = twoTo g * twoTo i := twoTo_add g i
      have front : a * Digit.base * twoTo i = twoTo (g + i) * (a * twoTo p) := by
        rw [unit, base]
        ring
      rw [front] at above
      obtain ⟨v, rfl⟩ := Nat.exists_eq_add_of_le (Nat.le_of_mul_le_mul_left above (twoTo_pos _))
      refine ⟨v, ?_⟩
      rw [front, unit]
      ring
    rw [same]
    constructor
    · intro le
      have short : v * twoTo g ≤ b := by
        rw [← Nat.lt_add_one_iff]
        apply Nat.lt_of_mul_lt_mul_right (a := twoTo i)
        rw [Nat.add_one_mul]
        omega
      have least := Nat.mul_le_mul_right (twoTo i) ((roundToBits_digit_grid pos bits digit v).1 short)
      omega
    · intro le
      have long : b ≤ v * twoTo g := by
        apply Nat.le_of_mul_le_mul_right _ (twoTo_pos i)
        omega
      have most := Nat.mul_le_mul_right (twoTo i) ((roundToBits_digit_grid pos bits digit v).2 long)
      omega

end Steps

section Top

variable (pos : 0 < p) (few : p + 2 ≤ Digit.bits) (low : Digits) (b : Digit) {a : Digit}

theorem value_pair (low : Digits) (b a : Digit) :
    Digits.value (low ++ [b, a]) =
      (a.toNat * Digit.base + b.toNat) * Digits.weight low.length + Digits.value low := by
  simp only [Digits.value_append, Digits.value_cons, Digits.value_nil, Nat.mul_zero, Nat.add_zero]
  ring

theorem value_pair_top (low : Digits) (b a : Digit) :
    Digits.value (low ++ [b, a]) =
      a.toNat * Digits.weight (low.length + 1) + Digits.value (low ++ [b]) := by
  simp only [Digits.value_append, Digits.value_cons, Digits.value_nil, Digits.weight_succ]
  ring

theorem value_lt_weight (low : Digits) (b : Digit) :
    Digits.value (low ++ [b]) < Digits.weight (low.length + 1) := by
  simpa using Digits.value_lt (low ++ [b])

include pos few

/-- After the two digits at the top there are no roundings any more. -/
theorem horner_pair (top : a ≠ 0) :
    horner p (low ++ [b, a]) =
      roundToBits p ((roundToBits p a.toNat * Digit.base + roundToBits p b.toNat) *
        Digits.weight low.length) := by
  have kept : 1 ≤ roundToBits p a.toNat :=
    le_roundToBits pos (fitsBits_twoTo pos 0) (Digit.toNat_pos top)
  have pair : horner p [b, a] =
      roundToBits p (roundToBits p a.toNat * Digit.base + roundToBits p b.toNat) := by
    rw [horner_cons pos, horner_singleton pos]
  have large : twoTo (p + 1) ≤ horner p [b, a] :=
    calc twoTo (p + 1)
        ≤ Digit.base := twoTo_le (n := Digit.bits) (by omega)
      _ ≤ horner p [b, a] := by
        rw [pair]
        apply le_roundToBits pos (fitsBits_base pos)
        exact Nat.le_trans (Nat.le_mul_of_pos_left _ kept) (Nat.le_add_right ..)
  rw [horner_append pos low large, pair, weight_eq, roundToBits_mul_twoTo pos]

/-- Where the top digit is not rounded, the two digits at the top stand for all of them. -/
theorem standsFor_pair (top : a ≠ 0) (fits : FitsBits p a.toNat) :
    StandsFor p
      ((roundToBits p a.toNat * Digit.base + roundToBits p b.toNat) * Digits.weight low.length)
      (Digits.value (low ++ [b, a])) := by
  have lt := Digits.value_lt low
  rw [value_pair, fits.roundToBits_eq]
  rw [weight_eq] at lt ⊢
  exact standsFor_second pos (by omega) (Digit.toNat_pos top) b.toNat_lt_base lt

omit pos few in
/-- A top digit with too many bits stands for all the digits. -/
theorem standsFor_top (more : ¬FitsBits p a.toNat) :
    StandsFor p (a.toNat * Digits.weight (low.length + 1)) (Digits.value (low ++ [b, a])) := by
  have rest := value_lt_weight low b
  rw [value_pair_top]
  rw [weight_eq] at rest ⊢
  exact standsFor_mul_twoTo (twoTo_le_of_not_fitsBits more) rest

/-- Where the top digit is rounded, nothing more is. -/
theorem horner_top (more : ¬FitsBits p a.toNat) :
    horner p (low ++ [b, a]) = roundToBits p (a.toNat * Digits.weight (low.length + 1)) := by
  have top : a ≠ 0 := by
    rintro rfl
    exact more (.of_lt (twoTo_pos p))
  have kept := le_roundToBits pos (fitsBits_twoTo pos p) (twoTo_le_of_not_fitsBits more)
  have four := four_dvd_roundToBits pos more
  have digit := roundToBits_digit_le pos b.toNat_lt_base
  rw [horner_pair pos few low b top, weight_eq, weight_eq, roundToBits_mul_twoTo pos,
    roundToBits_mul_twoTo pos, roundToBits_add_digit pos (fitsBits_roundToBits pos _) kept four digit,
    Nat.mul_add_one, Nat.add_comm, twoTo_add, twoTo_bits, Nat.mul_assoc]

theorem neighbour_horner_pair (top : a ≠ 0) :
    Neighbour p (Digits.value (low ++ [b, a])) (horner p (low ++ [b, a])) := by
  by_cases fits : FitsBits p a.toNat
  · rw [horner_pair pos few low b top]
    exact (standsFor_pair pos few low b top fits).neighbour pos
  · rw [horner_top pos few low b fits]
    exact (standsFor_top low b fits).neighbour pos

theorem horner_pair_eq_iff (top : a ≠ 0) :
    horner p (low ++ [b, a]) = roundToBits p (Digits.value (low ++ [b, a])) ↔
      ¬(Misleads p (a.toNat * Digits.weight (low.length + 1)) (Digits.value (low ++ [b, a])) ∨
        Misleads p ((roundToBits p a.toNat * Digit.base + roundToBits p b.toNat) *
          Digits.weight low.length) (Digits.value (low ++ [b, a]))) := by
  have pair := horner_pair pos few low b top
  rw [not_or]
  by_cases fits : FitsBits p a.toNat
  · have kept : ¬Misleads p (a.toNat * Digits.weight (low.length + 1)) (Digits.value (low ++ [b, a])) := by
      rw [weight_eq]
      exact (fits.mul_twoTo _).not_misleads
    rw [pair, (standsFor_pair pos few low b top fits).roundToBits_eq_iff pos]
    exact ⟨fun straight => ⟨kept, straight⟩, And.right⟩
  · have single := horner_top pos few low b fits
    rw [← (standsFor_top low b fits).roundToBits_eq_iff pos, ← single]
    refine ⟨fun same => ⟨same, fun misled => ?_⟩, And.left⟩
    exact misled.ne pos (pair.symm.trans same)

/-- Rounding all the digits reaches the weight of the next place where rounding the top digit reaches the
    base. -/
theorem weight_le_roundToBits_pair_iff :
    Digits.weight (low.length + 2) ≤ roundToBits p (Digits.value (low ++ [b, a])) ↔
      Digit.base ≤ roundToBits p a.toNat := by
  obtain ⟨k, bits⟩ : ∃ k, Digit.bits = p + (k + 1) := ⟨Digit.bits - p - 1, by omega⟩
  have rest := value_lt_weight low b
  rw [weight_eq] at rest
  rw [value_pair_top, Digits.weight_succ, weight_eq, ← twoTo_bits, bits, ← twoTo_add]
  rw [bits] at rest
  exact twoTo_le_roundToBits_add_iff pos rest

/-- So do the digits in steps. -/
theorem weight_le_horner_pair_iff (top : a ≠ 0) :
    Digits.weight (low.length + 2) ≤ horner p (low ++ [b, a]) ↔ Digit.base ≤ roundToBits p a.toNat := by
  obtain ⟨k, bits⟩ : ∃ k, Digit.bits = p + (k + 1) := ⟨Digit.bits - p - 1, by omega⟩
  have two : 2 ≤ twoTo k := twoTo_le (m := 1) (by omega)
  have fits : FitsBits p (Digits.weight (low.length + 2)) := weight_eq _ ▸ fitsBits_twoTo pos _
  rw [horner_pair pos few low b top]
  constructor
  · intro reached
    rw [← Nat.not_lt]
    intro below
    -- the gap below the base has room for the second digit and for half of the last place
    have gap := (fitsBits_roundToBits pos a.toNat).add_le_twoTo pos (k := k + 1) (by rwa [← bits])
    rw [← bits, twoTo_bits, twoTo_succ] at gap
    have place : Digits.weight (low.length + 2) = twoTo (p + (k + Digit.bits * (low.length + 1) + 1)) := by
      rw [weight_eq, Nat.mul_succ Digit.bits (low.length + 1)]
      congr 1
      omega
    rw [place, twoTo_le_roundToBits_iff pos, ← place, twoTo_add, ← weight_eq, Digits.weight_succ (_ + 1),
      Digits.weight_succ] at reached
    have digit := Nat.mul_le_mul_right (Digits.weight low.length) (roundToBits_digit_le pos b.toNat_lt_base)
    have short : roundToBits p a.toNat + 1 + twoTo k < Digit.base := by omega
    have less := Nat.mul_lt_mul_of_pos_right short
      (Nat.mul_pos Digits.base_pos (Digits.weight_pos low.length))
    rw [Nat.add_mul, Nat.mul_assoc] at reached
    rw [Nat.add_mul, Nat.add_one_mul] at less
    omega
  · intro reached
    apply le_roundToBits pos fits
    rw [Digits.weight_succ, Digits.weight_succ, ← Nat.mul_assoc]
    apply Nat.mul_le_mul_right
    exact Nat.le_trans (Nat.mul_le_mul_right _ reached) (Nat.le_add_right ..)

theorem weight_le_horner_iff_of_pair (top : a ≠ 0) (n : Nat) :
    Digits.weight n ≤ horner p (low ++ [b, a]) ↔
      Digits.weight n ≤ roundToBits p (Digits.value (low ++ [b, a])) := by
  have fits (i : Nat) : FitsBits p (Digits.weight i) := weight_eq i ▸ fitsBits_twoTo pos _
  have here := neighbour_horner_pair pos few low b top
  have there := neighbour_roundToBits pos (Digits.value (low ++ [b, a]))
  have most : Digits.value (low ++ [b, a]) < Digits.weight (low.length + 2) := by
    simpa using Digits.value_lt (low ++ [b, a])
  rcases Nat.lt_trichotomy n (low.length + 2) with less | rfl | more
  · have least : Digits.weight n ≤ Digits.value (low ++ [b, a]) := by
      rw [value_pair_top]
      refine Nat.le_trans (Digits.weight_mono (Nat.le_of_lt_succ less)) ?_
      exact Nat.le_trans (Nat.le_mul_of_pos_left _ (Digit.toNat_pos top)) (Nat.le_add_right ..)
    exact iff_of_true (here.ge_of_ge (fits n) least) (there.ge_of_ge (fits n) least)
  · rw [weight_le_horner_pair_iff pos few low b top, weight_le_roundToBits_pair_iff pos few]
  · have past : Digits.weight (low.length + 2) < Digits.weight n :=
      Nat.pow_lt_pow_right (by decide) more
    have stays := here.le_of_le (fits _) (Nat.le_of_lt most)
    have rounds := there.le_of_le (fits _) (Nat.le_of_lt most)
    exact iff_of_false (by omega) (by omega)

end Top

/-! ### All digits -/

section All

variable (pos : 0 < p)

/-- Digits without zeros at the top are at most one, or there are two at the top. -/
theorem trim_cases (ds : Digits) :
    (Digits.trim ds).length ≤ 1 ∨ ∃ low b a, a ≠ 0 ∧ Digits.trim ds = low ++ [b, a] := by
  have top := Digits.getLast?_trim ds
  rcases List.eq_nil_or_concat (Digits.trim ds) with nil | ⟨front, a, last⟩
  · exact .inl (by rw [nil]; exact Nat.zero_le 1)
  · rcases List.eq_nil_or_concat front with rfl | ⟨low, b, rfl⟩
    · exact .inl (by rw [last]; exact Nat.le_refl 1)
    · refine .inr ⟨low, b, a, ?_, ?_⟩
      · rintro rfl
        simp [last] at top
      · simp [last]

theorem misled_iff {ds low : Digits} {b a : Digit} (pair : Digits.trim ds = low ++ [b, a]) :
    Misled p ds ↔
      Misleads p (a.toNat * Digits.weight (low.length + 1)) (Digits.value ds) ∨
        Misleads p ((roundToBits p a.toNat * Digit.base + roundToBits p b.toNat) *
          Digits.weight low.length) (Digits.value ds) := by
  constructor
  · rintro ⟨low', b', a', same, misled⟩
    obtain ⟨rfl, top⟩ := List.append_inj' (same.symm.trans pair) rfl
    obtain ⟨rfl, last⟩ := List.cons.inj top
    obtain ⟨rfl, -⟩ := List.cons.inj last
    exact misled
  · intro misled
    exact ⟨low, b, a, pair, misled⟩

include pos

/-- One digit is rounded once. -/
theorem horner_short {ds : Digits} (short : (Digits.trim ds).length ≤ 1) :
    horner p ds = roundToBits p (Digits.value ds) := by
  rw [← horner_trim pos, ← Digits.value_trim]
  match Digits.trim ds, short with
  | [], _ => exact (roundToBits_zero p).symm
  | [d], _ => rw [horner_singleton pos]; simp

variable (few : p + 2 ≤ Digit.bits)

include few

/-- Rounding in every step gives one of the two neighbours of the value. -/
theorem neighbour_horner (ds : Digits) : Neighbour p (Digits.value ds) (horner p ds) := by
  rcases trim_cases ds with short | ⟨low, b, a, top, pair⟩
  · rw [horner_short pos short]
    exact neighbour_roundToBits pos _
  · rw [← horner_trim pos, ← Digits.value_trim, pair]
    exact neighbour_horner_pair pos few low b top

/-- Rounding in every step is rounding once, unless a rounding at the top is misled. -/
theorem horner_eq_iff (ds : Digits) : horner p ds = roundToBits p (Digits.value ds) ↔ ¬Misled p ds := by
  rcases trim_cases ds with short | ⟨low, b, a, top, pair⟩
  · refine iff_of_true (horner_short pos short) ?_
    rintro ⟨low, b, a, long, -⟩
    simp [long] at short
  · rw [misled_iff pair, ← horner_trim pos ds, ← Digits.value_trim ds, pair]
    exact horner_pair_eq_iff pos few low b top

/-- Whether the weight of a place is reached does not depend on how often is rounded. -/
theorem weight_le_horner_iff (ds : Digits) (n : Nat) :
    Digits.weight n ≤ horner p ds ↔ Digits.weight n ≤ roundToBits p (Digits.value ds) := by
  rcases trim_cases ds with short | ⟨low, b, a, top, pair⟩
  · rw [horner_short pos short]
  · rw [← horner_trim pos, ← Digits.value_trim, pair, weight_le_horner_iff_of_pair pos few low b top]

end All

/-! ### Digits in a format -/

/-- The digits in a format are its steps without a bound, where those stay below it. -/
theorem numberOfDigits_eq_horner (std : f.Standard) (large : Digit.base < twoTo (f.greatestExponent + 1))
    (ds : Digits) :
    numberOfDigits f ds =
      if horner f.precision ds < twoTo (f.greatestExponent + 1) then some (horner f.precision ds)
      else none := by
  have pos := std.precision
  induction ds with
  | nil => exact (if_pos (twoTo_pos _)).symm
  | cons d ds ih =>
    have fits := (fitsBits_horner pos ds).mul_twoTo Digit.bits
    rw [twoTo_bits] at fits
    have steps := horner_cons pos d ds
    have grows : horner f.precision ds * Digit.base ≤ horner f.precision (d :: ds) := by
      rw [steps]
      exact le_roundToBits pos fits (Nat.le_add_right ..)
    have more : horner f.precision ds ≤ horner f.precision ds * Digit.base :=
      Nat.le_mul_of_pos_right _ Digits.base_pos
    have digit : f.roundNat d.toNat = some (roundToBits f.precision d.toNat) :=
      if_pos (Nat.lt_of_le_of_lt (roundToBits_digit_le pos d.toNat_lt_base) large)
    rw [numberOfDigits_cons, ih]
    split
    · next small =>
      rw [Option.bind_some, Format.roundNat, fits.roundToBits_eq]
      split
      · rw [Option.bind_some, digit, Option.bind_some, Format.roundNat, ← steps]
      · rw [if_neg (by omega)]
        rfl
    · rw [if_neg (by omega)]
      rfl

/-- What the formats of 32 and of 64 bits have in common besides: a mantissa shorter than a digit, and
    finite numbers up to the weight of a place. -/
structure Format.Digital (f : Format) : Prop where
  few : f.precision + 2 ≤ Digit.bits
  places : ∃ n, 1 < n ∧ f.greatestExponent + 1 = Digit.bits * n

theorem Format.digital (h : f ∈ [single, double]) : f.Digital := by
  simp only [List.mem_cons, List.not_mem_nil, or_false] at h
  rcases h with rfl | rfl
  · exact ⟨by decide, 2, by decide, by decide⟩
  · exact ⟨by decide, 16, by decide, by decide⟩

section Digital

variable (std : f.Standard) (digital : f.Digital)

include std digital

theorem numberOfDigits_eq_ite (ds : Digits) :
    numberOfDigits f ds =
      if roundToBits f.precision (Digits.value ds) < twoTo (f.greatestExponent + 1) then
        some (horner f.precision ds)
      else none := by
  obtain ⟨n, more, places⟩ := digital.places
  have bound : twoTo (f.greatestExponent + 1) = Digits.weight n := by rw [places, weight_eq]
  have large : Digit.base < Digits.weight n := by
    rw [← Digits.weight_one]
    exact Nat.pow_lt_pow_right (by decide) more
  have reached := weight_le_horner_iff std.precision digital.few ds n
  have same : horner f.precision ds < Digits.weight n ↔
      roundToBits f.precision (Digits.value ds) < Digits.weight n := by
    rw [← Nat.not_le, reached, Nat.not_le]
  rw [numberOfDigits_eq_horner std (bound ▸ large), bound]
  simp only [same]

/-- The number of the digits is infinite where the nearest one to their value is, and the nearest one
    otherwise unless a rounding at the top is misled. -/
theorem numberOfDigits_eq_roundNat_iff (ds : Digits) :
    numberOfDigits f ds = f.roundNat (Digits.value ds) ↔
      f.roundNat (Digits.value ds) = none ∨ ¬Misled f.precision ds := by
  rw [numberOfDigits_eq_ite std digital, Format.roundNat]
  split
  · next small =>
    rw [Option.some_inj, horner_eq_iff std.precision digital.few]
    simp
  · simp

/-- A finite number of the digits is a neighbour of their value. -/
theorem exists_numberOfDigits {ds : Digits} (finite : f.roundNat (Digits.value ds) ≠ none) :
    ∃ r, numberOfDigits f ds = some r ∧ Neighbour f.precision (Digits.value ds) r := by
  refine ⟨_, ?_, neighbour_horner std.precision digital.few ds⟩
  rw [numberOfDigits_eq_ite std digital, if_pos]
  by_contra large
  exact finite (if_neg large)

end Digital

end Multiprecision.BinaryFloat
