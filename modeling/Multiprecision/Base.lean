import Multiprecision.Digit
import Multiprecision.Error

/-! The bases of numerals. A base is supported from 2 to 64; up to 62 a numeral may carry a sign,
    since from 63 on the sign `+` is a token. A numeral may also name its base by how it begins. -/

namespace Multiprecision

/-- A supported base. -/
structure Base where
  toNat : Nat
  two_le : leastBase ≤ toNat
  le_greatest : toNat ≤ greatestBase
  deriving DecidableEq, Repr

namespace Base

/-- The largest base whose numerals may carry a sign. -/
def greatestSigned : Nat := 62

/-- The base of a number, which must be supported. -/
def ofNat (n : Nat) : Except Error Base :=
  if h : leastBase ≤ n ∧ n ≤ greatestBase then .ok ⟨n, h.1, h.2⟩ else .error (.unsupportedBase n)

theorem ofNat_toNat (b : Base) : ofNat b.toNat = .ok b := dif_pos ⟨b.two_le, b.le_greatest⟩

/-- A number is refused as a base exactly when it is not supported. -/
theorem ofNat_eq_error_iff {n : Nat} {e : Error} :
    ofNat n = .error e ↔ (n < leastBase ∨ greatestBase < n) ∧ e = .unsupportedBase n := by
  rw [ofNat]
  split
  · next supported =>
    constructor
    · rintro ⟨⟩
    · rintro ⟨outside, -⟩
      omega
  · next outside =>
    constructor
    · rintro ⟨⟩
      exact ⟨by omega, rfl⟩
    · rintro ⟨-, rfl⟩
      rfl

def binary : Base := ⟨2, by decide, by decide⟩
def octal : Base := ⟨8, by decide, by decide⟩
def decimal : Base := ⟨10, by decide, by decide⟩
def hexadecimal : Base := ⟨16, by decide, by decide⟩

/-- The base as a digit. -/
def digit (b : Base) : Digit := Digit.low b.toNat

theorem pos (b : Base) : 0 < b.toNat := Nat.lt_of_lt_of_le (by decide) b.two_le

theorem toNat_digit (b : Base) : b.digit.toNat = b.toNat :=
  Digit.toNat_low_of_lt (Nat.lt_of_le_of_lt b.le_greatest (by decide))

/-! ### Powers that fit in a digit -/

/-- A power of the base. -/
def power (b : Base) (k : Nat) : Nat := Nat.pow b.toNat k

/-- Raises the power `p` of the base, with its exponent `k`, while the next one fits in a digit, in at
    most `rounds` rounds. -/
def raisePower (b : Base) : Nat → Nat → Nat → Nat × Nat
  | 0, p, k => (p, k)
  | rounds + 1, p, k =>
    if p * b.toNat < Digit.base then raisePower b rounds (p * b.toNat) (k + 1) else (p, k)

/-- The number of tokens of a chunk, the most whose value always fits in a digit; no base has more than
    one token for each bit. -/
def chunkLength (b : Base) : Nat := (b.raisePower Digit.bits b.toNat 1).2

/-- The base to the power of `chunkLength`, as a digit. -/
def chunkPower (b : Base) : Digit := Digit.low (b.raisePower Digit.bits b.toNat 1).1

theorem raisePower_law (b : Base) (rounds p k : Nat) (h : p = b.power k) (lt : p < Digit.base) :
    (b.raisePower rounds p k).1 = b.power (b.raisePower rounds p k).2 ∧
      (b.raisePower rounds p k).1 < Digit.base ∧ k ≤ (b.raisePower rounds p k).2 := by
  fun_induction raisePower b rounds p k with
  | case1 p k => exact ⟨h, lt, Nat.le_refl _⟩
  | case2 p k rounds next ih =>
    obtain ⟨e, lt, le⟩ := ih (by rw [h]; rfl) next
    exact ⟨e, lt, by omega⟩
  | case3 p k rounds next => exact ⟨h, lt, Nat.le_refl _⟩

theorem raisePower_spec (b : Base) :
    (b.raisePower Digit.bits b.toNat 1).1 = b.power b.chunkLength ∧
      (b.raisePower Digit.bits b.toNat 1).1 < Digit.base ∧ 1 ≤ b.chunkLength :=
  b.raisePower_law _ _ _ (Nat.pow_one _).symm (Nat.lt_of_le_of_lt b.le_greatest (by decide))

theorem chunkLength_pos (b : Base) : 0 < b.chunkLength := b.raisePower_spec.2.2

/-- The power that a chunk spans fits in a digit. -/
theorem toNat_chunkPower (b : Base) : b.chunkPower.toNat = b.power b.chunkLength := by
  rw [chunkPower, Digit.toNat_low_of_lt b.raisePower_spec.2.1, b.raisePower_spec.1]

theorem two_le_chunkPower (b : Base) : 2 ≤ b.chunkPower.toNat := by
  rw [toNat_chunkPower]
  exact Nat.le_trans b.two_le (Nat.le_self_pow (Nat.ne_of_gt b.chunkLength_pos) _)

theorem chunkPower_pos (b : Base) : 0 < b.chunkPower.toNat :=
  Nat.lt_of_lt_of_le Nat.two_pos b.two_le_chunkPower

/-! ### Bases named by how a numeral begins -/

/-- What the beginning of a numeral says: how many tokens name the base, and the base. -/
structure Mark where
  length : Nat
  base : Base
  deriving DecidableEq, Repr

/-- Reads how a numeral begins: a `0` before a `b` or an `x`, in either case, stands for base 2 or 16, a
    `0` before another token for base 8, and all else for base 10. -/
def mark : List UInt8 → Mark
  | zero :: second :: _ =>
    if zero ≠ '0'.toUInt8 then ⟨0, decimal⟩
    else if second = 'b'.toUInt8 ∨ second = 'B'.toUInt8 then ⟨2, binary⟩
    else if second = 'x'.toUInt8 ∨ second = 'X'.toUInt8 then ⟨2, hexadecimal⟩
    else ⟨1, octal⟩
  | _ => ⟨0, decimal⟩

end Base

end Multiprecision
