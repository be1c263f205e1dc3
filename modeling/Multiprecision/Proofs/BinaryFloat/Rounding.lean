import Multiprecision.Digit
import Multiprecision.Proofs.BinaryFloat.Value

/-! Roundings that change nothing. A number with few enough significant bits is kept by rounding to a
    format, and the numbers with so many bits are closed under what is done to them here: products,
    quotients and remainders by a power of two. -/

namespace Multiprecision

/-! ### Significant bits -/

theorem bitLength_le_iff (n k : Nat) : bitLength n ≤ k ↔ n < twoTo k := by
  rw [bitLength]
  split
  · next h =>
    have pos := twoTo_pos k
    omega
  · next h => exact Nat.log2_lt h

/-- A rounded quotient is at most half a step away, and even where it is half a step away. -/
theorem halfEven_law (n k : Nat) :
    2 * (halfEven n k * twoTo k) ≤ 2 * n + twoTo k ∧ 2 * n ≤ 2 * (halfEven n k * twoTo k) + twoTo k ∧
      (2 * (n % twoTo k) = twoTo k → halfEven n k % 2 = 0) := by
  have parts := Nat.div_add_mod' n (twoTo k)
  have below := Nat.mod_lt n (twoTo_pos k)
  have next := Nat.add_one_mul (n / twoTo k) (twoTo k)
  simp only [halfEven]
  split
  · omega
  · split
    · omega
    · rcases Nat.mod_two_eq_zero_or_one (n / twoTo k) with even | odd
      · rw [even, Nat.add_zero]
        omega
      · rw [odd]
        omega

/-- A quotient without a remainder is not rounded. -/
theorem halfEven_of_dvd {n k : Nat} (h : twoTo k ∣ n) : halfEven n k = n / twoTo k := by
  have below : 2 * (n % twoTo k) < twoTo k := by
    rw [Nat.mod_eq_zero_of_dvd h]
    exact twoTo_pos k
  rw [halfEven, if_pos below]

/-- A natural number with at most `p` significant bits. -/
def FitsBits (p n : Nat) : Prop := ∃ m k, m < twoTo p ∧ n = m * twoTo k

namespace FitsBits

variable {p n : Nat}

theorem of_lt (h : n < twoTo p) : FitsBits p n := ⟨n, 0, h, (Nat.mul_one n).symm⟩

theorem mul_twoTo (h : FitsBits p n) (j : Nat) : FitsBits p (n * twoTo j) := by
  obtain ⟨m, k, lt, rfl⟩ := h
  exact ⟨m, k + j, lt, by rw [twoTo_add, Nat.mul_assoc]⟩

theorem div_twoTo (h : FitsBits p n) (j : Nat) : FitsBits p (n / twoTo j) := by
  obtain ⟨m, k, lt, rfl⟩ := h
  rcases Nat.le_total j k with le | le
  · obtain ⟨i, rfl⟩ := Nat.exists_eq_add_of_le le
    refine ⟨m, i, lt, ?_⟩
    rw [twoTo_add, Nat.mul_left_comm, Nat.mul_div_cancel_left _ (twoTo_pos j)]
  · obtain ⟨i, rfl⟩ := Nat.exists_eq_add_of_le le
    refine of_lt (Nat.lt_of_le_of_lt ?_ lt)
    rw [twoTo_add, Nat.mul_comm m, Nat.mul_div_mul_left _ _ (twoTo_pos k)]
    exact Nat.div_le_self ..

theorem mod_twoTo (h : FitsBits p n) (j : Nat) : FitsBits p (n % twoTo j) := by
  obtain ⟨m, k, lt, rfl⟩ := h
  rcases Nat.le_total j k with le | le
  · obtain ⟨i, rfl⟩ := Nat.exists_eq_add_of_le le
    rw [twoTo_add, Nat.mul_left_comm, Nat.mul_mod_right]
    exact of_lt (twoTo_pos p)
  · obtain ⟨i, rfl⟩ := Nat.exists_eq_add_of_le le
    refine ⟨m % twoTo i, k, Nat.lt_of_le_of_lt (Nat.mod_le ..) lt, ?_⟩
    rw [twoTo_add, Nat.mul_comm m, Nat.mul_mod_mul_left, Nat.mul_comm]

/-- What rounding drops from a number with few enough significant bits are zeros. -/
theorem dropped_dvd (h : FitsBits p n) : twoTo (bitLength n - p) ∣ n := by
  obtain ⟨m, k, lt, same⟩ := h
  have length : bitLength n ≤ p + k := by
    rw [bitLength_le_iff, same, twoTo_add]
    exact Nat.mul_lt_mul_of_pos_right lt (twoTo_pos k)
  have dropped : bitLength n - p ≤ k := by omega
  exact ((twoTo_dvd dropped).mul_left m).trans (dvd_of_eq same.symm)

/-- A number with few enough significant bits is kept by rounding to so many. -/
theorem roundToBits_eq (h : FitsBits p n) : roundToBits p n = n := by
  rw [roundToBits, halfEven_of_dvd h.dropped_dvd, Nat.div_mul_cancel h.dropped_dvd]

/-- A number with few significant bits that is large is a multiple of a large power of two. -/
theorem twoTo_dvd_of_le (h : FitsBits p n) {j k : Nat} (le : twoTo j ≤ n) (few : p + k ≤ j + 1) :
    twoTo k ∣ n := by
  obtain ⟨m, i, lt, rfl⟩ := h
  have bound : m * twoTo i < twoTo (p + i) := by
    rw [twoTo_add]
    exact Nat.mul_lt_mul_of_pos_right lt (twoTo_pos i)
  have exponent : j < p + i := by
    rw [← Nat.not_le]
    intro more
    have power := twoTo_le more
    omega
  exact (twoTo_dvd (by omega)).mul_left m

end FitsBits

@[simp] theorem roundToBits_zero (p : Nat) : roundToBits p 0 = 0 :=
  (FitsBits.of_lt (twoTo_pos p)).roundToBits_eq

namespace BinaryFloat.Format

variable {f : Format}

/-! ### Numbers of a format -/

/-- A number whose mantissa fits at an exponent of the format, however large it is. -/
def Representable (f : Format) (q : ℚ) : Prop :=
  ∃ y : Scaled, y.mantissa < twoTo f.precision ∧ f.leastExponent ≤ y.exponent ∧ q = y.toRat

/-- Rounding the number to the format changes nothing. -/
def Exact (f : Format) (x : Scaled) : Prop := (f.nearest x).toRat = x.toRat

theorem exact_of_dvd {x : Scaled} (dvd : twoTo (f.exponentFor x - x.exponent).toNat ∣ x.mantissa) :
    f.Exact x := by
  rw [Exact, nearest]
  split
  · rfl
  · next rounded =>
    have finer := Scaled.toRat_finer (x.mantissa / twoTo (f.exponentFor x - x.exponent).toNat)
      (Int.le_of_lt (Int.not_le.1 rounded))
    rw [halfEven_of_dvd dvd, ← finer, Nat.div_mul_cancel dvd]

/-- A number of the format is kept, in whatever form it is given. -/
theorem exact_of_representable {x : Scaled} (h : f.Representable x.toRat) : f.Exact x := by
  obtain ⟨y, fits, least, same⟩ := h
  have length := bitLength_le_iff x.mantissa
  apply exact_of_dvd
  rcases Int.le_total y.exponent x.exponent with coarser | finer
  · have mantissa := Scaled.mantissa_eq same.symm coarser
    have smaller : x.mantissa ≤ y.mantissa := mantissa ▸ Nat.le_mul_of_pos_right _ (twoTo_pos _)
    have short := (length f.precision).2 (Nat.lt_of_le_of_lt smaller fits)
    have whole : (f.exponentFor x - x.exponent).toNat = 0 := by
      rw [exponentFor]
      omega
    rw [whole]
    exact Nat.one_dvd _
  · have mantissa := Scaled.mantissa_eq same finer
    have short : bitLength x.mantissa ≤ f.precision + (y.exponent - x.exponent).toNat := by
      rw [length, mantissa, twoTo_add]
      exact Nat.mul_lt_mul_of_pos_right fits (twoTo_pos _)
    have dropped : (f.exponentFor x - x.exponent).toNat ≤ (y.exponent - x.exponent).toNat := by
      rw [exponentFor]
      omega
    exact ((twoTo_dvd dropped).mul_left y.mantissa).trans (dvd_of_eq mantissa.symm)

theorem representable_of_fitsBits {n : Nat} (h : FitsBits f.precision n) {e : Int}
    (least : f.leastExponent ≤ e) : f.Representable (n * 2 ^ e) := by
  obtain ⟨m, k, lt, rfl⟩ := h
  refine ⟨⟨m, k + e⟩, lt, ?_, ?_⟩
  · change f.leastExponent ≤ k + e
    omega
  · rw [Scaled.toRat, Nat.cast_mul, cast_twoTo, mul_assoc, ← zpow_natCast, ← zpow_add₀ two_ne_zero]

/-- A natural number with few enough significant bits is kept, unless it is too large. -/
theorem roundNat_eq {n : Nat} (h : FitsBits f.precision n) (lt : n < twoTo (f.greatestExponent + 1)) :
    f.roundNat n = some n := by
  rw [roundNat, h.roundToBits_eq, if_pos lt]

/-! ### Finite values -/

/-- The magnitude of a finite value: mantissa and exponent keep to their bounds. -/
structure Contains (f : Format) (m : Scaled) : Prop where
  fits : m.mantissa < twoTo f.precision
  least : f.leastExponent ≤ m.exponent
  greatest : m.exponent + f.precision ≤ f.greatestExponent + 1

/-- What the formats of 32 and of 64 bits have in common: normal and subnormal numbers, and numbers far
    enough below one to divide by the base of the digits. -/
structure Standard (f : Format) : Prop where
  precision : 0 < f.precision
  exponentBits : 2 ≤ f.exponentBits
  least : f.leastExponent ≤ -Digit.bits

theorem standard {f : Format} (h : f ∈ [single, double]) : f.Standard := by
  simp only [List.mem_cons, List.not_mem_nil, or_false] at h
  rcases h with rfl | rfl <;> exact ⟨by decide, by decide, by decide⟩

/-- Every bit pattern of a finite value keeps to the bounds. -/
theorem contains_of_decode (std : f.Standard) {bits : Nat} {negative : Bool} {m : Scaled}
    (h : f.decode bits = .finite negative m) : f.Contains m := by
  have hidden : twoTo f.precision = 2 * twoTo (f.precision - 1) := by
    rw [← twoTo_succ, Nat.sub_add_cancel std.precision]
  have exponents : twoTo f.exponentBits = 2 * (f.greatestExponent + 1) := by
    have enough := Nat.le_of_lt std.exponentBits
    rw [greatestExponent, Nat.sub_add_cancel (twoTo_pos _), ← twoTo_succ, Nat.sub_add_cancel enough]
  have normal : 2 ≤ f.greatestExponent + 1 := by
    rw [greatestExponent, Nat.sub_add_cancel (twoTo_pos _)]
    exact twoTo_le (m := 1) (Nat.le_sub_one_of_lt std.exponentBits)
  have fraction := Nat.mod_lt bits (twoTo_pos (f.precision - 1))
  have field := Nat.mod_lt (bits / twoTo (f.precision - 1)) (twoTo_pos f.exponentBits)
  simp only [decode] at h
  split at h
  · split at h <;> cases h
  · next finite =>
    -- subnormal numbers share the least exponent; the others have the hidden bit
    split at h
    · cases h
      refine ⟨?_, ?_, ?_⟩ <;> simp only [leastExponent] <;> omega
    · cases h
      refine ⟨?_, ?_, ?_⟩ <;> simp only [leastExponent] <;> omega

namespace Contains

variable {m : Scaled} (h : f.Contains m)

include h

theorem fitsBits_floor : FitsBits f.precision m.floor := by
  rw [Scaled.floor]
  split
  · exact (FitsBits.of_lt h.fits).mul_twoTo _
  · exact (FitsBits.of_lt h.fits).div_twoTo _

theorem floor_lt : m.floor < twoTo (f.greatestExponent + 1) := by
  have power : (0 : ℚ) < 2 ^ m.exponent := zpow_pos two_pos _
  rw [Scaled.floor_eq, Nat.floor_lt m.toRat_nonneg, Scaled.toRat]
  calc (m.mantissa : ℚ) * 2 ^ m.exponent
      < twoTo f.precision * 2 ^ m.exponent := mul_lt_mul_of_pos_right (Nat.cast_lt.2 h.fits) power
    _ = 2 ^ (f.precision + m.exponent) := by
      rw [cast_twoTo, ← zpow_natCast, zpow_add₀ two_ne_zero]
    _ ≤ 2 ^ ((f.greatestExponent + 1 : Nat) : Int) := by
      have greatest := h.greatest
      exact zpow_le_zpow_right₀ one_le_two (by omega)
    _ = twoTo (f.greatestExponent + 1) := by rw [cast_twoTo, zpow_natCast]

end Contains

end BinaryFloat.Format

end Multiprecision
