/-! One digit in base `2^64`, and the two-digit steps that every longer computation is built from:
    splitting and joining, addition with a carry, subtraction with a borrow, and a product with two
    addends. Each step has one law: what it returns recomposes to the exact natural number. -/

namespace Multiprecision

/-- A digit in base `2^64`. -/
abbrev Digit := UInt64

namespace Digit

/-- The base of the digits, `2^64`. -/
def base : Nat := 18446744073709551616

/-- The number of bits of a digit. -/
def bits : Nat := 64

/-- The largest digit. -/
def max : Digit := 18446744073709551615

/-- The two-digit number `hi * base + lo`. -/
def join (hi lo : Digit) : Nat := hi.toNat * base + lo.toNat

/-- The low digit of a number. -/
def low (n : Nat) : Digit := UInt64.ofNat n

/-- The digit above the low one. -/
def high (n : Nat) : Digit := UInt64.ofNat (n / base)

/-- The digit that a carry or a borrow adds to the next place. -/
def ofBool (b : Bool) : Digit := bif b then 1 else 0

/-- The digit of `a + b + carry`, and the carry into the next place. -/
def addCarry (a b : Digit) (carry : Bool) : Digit × Bool :=
  let s := a + b
  let t := s + ofBool carry
  (t, decide (s < a) || decide (t < s))

/-- The digit of `a - b - borrow`, and the borrow from the next place. -/
def subBorrow (a b : Digit) (borrow : Bool) : Digit × Bool :=
  let d := a - b
  let e := d - ofBool borrow
  (e, decide (a < b) || decide (d < ofBool borrow))

/-- The two-digit number `a * b + c + d`, high digit first. -/
def mulAdd (a b c d : Digit) : Digit × Digit :=
  let n := a.toNat * b.toNat + c.toNat + d.toNat
  (high n, low n)

/-- The number of zero bits above the highest set bit. -/
def leadingZeros (d : Digit) : Nat :=
  if d = 0 then bits else bits - 1 - d.toNat.log2

theorem toNat_lt_base (d : Digit) : d.toNat < base := d.toNat_lt

theorem toNat_pos {d : Digit} (h : d ≠ 0) : 0 < d.toNat :=
  Nat.pos_of_ne_zero fun zero => h (UInt64.toNat_inj.1 zero)

theorem toNat_low (n : Nat) : (low n).toNat = n % base := rfl

theorem toNat_high (n : Nat) : (high n).toNat = n / base % base := rfl

theorem toNat_low_of_lt {n : Nat} (h : n < base) : (low n).toNat = n := Nat.mod_eq_of_lt h

@[simp] theorem toNat_ofBool (b : Bool) : (ofBool b).toNat = b.toNat := by cases b <;> rfl

/-- Two digits added: the wrapped sum falls below an operand exactly when it overflows. -/
theorem add_law (a b : Digit) :
    (a + b).toNat + base * (decide (a + b < a)).toNat = a.toNat + b.toNat := by
  have ha := a.toNat_lt
  have hb := b.toNat_lt
  simp only [UInt64.lt_iff_toNat_lt, UInt64.toNat_add, base]
  by_cases h : (a.toNat + b.toNat) % 2 ^ 64 < a.toNat <;> simp only [h, decide_true, decide_false,
    Bool.toNat_true, Bool.toNat_false] <;> omega

/-- Two digits subtracted: the wrapped difference borrows exactly when the subtrahend is larger. -/
theorem sub_law (a b : Digit) :
    (a - b).toNat + b.toNat = a.toNat + base * (decide (a < b)).toNat := by
  have ha := a.toNat_lt
  have hb := b.toNat_lt
  simp only [UInt64.lt_iff_toNat_lt, UInt64.toNat_sub, base]
  by_cases h : a.toNat < b.toNat <;> simp only [h, decide_true, decide_false,
    Bool.toNat_true, Bool.toNat_false] <;> omega

/-- Two overflows that do not happen together count as one. -/
theorem toNat_or {p q : Bool} (h : p.toNat + q.toNat ≤ 1) : (p || q).toNat = p.toNat + q.toNat := by
  cases p <;> cases q <;> simp_all

/-- A sum digit and its carry recompose to the sum. -/
theorem addCarry_law (a b : Digit) (c : Bool) :
    (addCarry a b c).1.toNat + base * (addCarry a b c).2.toNat = a.toNat + b.toNat + c.toNat := by
  have h₁ := add_law a b
  have h₂ := add_law (a + b) (ofBool c)
  have ha := a.toNat_lt
  have hb := b.toNat_lt
  have hc := Bool.toNat_le c
  rw [toNat_ofBool] at h₂
  simp only [base] at h₁ h₂
  simp only [addCarry, base, toNat_or (p := decide (a + b < a))
    (q := decide (a + b + ofBool c < a + b)) (by omega)]
  omega

/-- A difference digit and what was subtracted recompose to the minuend with its borrow. -/
theorem subBorrow_law (a b : Digit) (c : Bool) :
    (subBorrow a b c).1.toNat + b.toNat + c.toNat = a.toNat + base * (subBorrow a b c).2.toNat := by
  have h₁ := sub_law a b
  have h₂ := sub_law (a - b) (ofBool c)
  have hb := b.toNat_lt
  have hc := Bool.toNat_le c
  have hd := (a - b - ofBool c).toNat_lt
  rw [toNat_ofBool] at h₂
  simp only [base] at h₁ h₂
  simp only [subBorrow, base, toNat_or (p := decide (a < b))
    (q := decide (a - b < ofBool c)) (by omega)]
  omega

/-- Two digits are below a multiple of the base where the high one is below its factor. -/
theorem join_lt {hi lo m : Digit} (lt : hi.toNat < m.toNat) : join hi lo < m.toNat * base := by
  have low := toNat_lt_base lo
  have above : (hi.toNat + 1) * base ≤ m.toNat * base := Nat.mul_le_mul_right _ lt
  rw [Nat.succ_mul] at above
  rw [join]
  omega

/-- A product with two addends never exceeds two digits. -/
theorem mul_add_lt (a b c d : Digit) :
    a.toNat * b.toNat + c.toNat + d.toNat < base * base := by
  have ha := toNat_lt_base a
  have hb := toNat_lt_base b
  have hc := toNat_lt_base c
  have hd := toNat_lt_base d
  have h : a.toNat * b.toNat ≤ (base - 1) * (base - 1) := Nat.mul_le_mul (by omega) (by omega)
  have e : (base - 1) * (base - 1) + 2 * (base - 1) + 1 = base * base := by decide
  omega

/-- The two digits of a product with two addends recompose to it. -/
theorem mulAdd_law (a b c d : Digit) :
    (mulAdd a b c d).2.toNat + base * (mulAdd a b c d).1.toNat =
      a.toNat * b.toNat + c.toNat + d.toNat := by
  have h := mul_add_lt a b c d
  have q : (a.toNat * b.toNat + c.toNat + d.toNat) / base < base := Nat.div_lt_of_lt_mul h
  simp only [mulAdd, toNat_low, toNat_high, Nat.mod_eq_of_lt q]
  exact Nat.mod_add_div _ _

end Digit

end Multiprecision
