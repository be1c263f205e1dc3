import Multiprecision.Digits
import Multiprecision.Sign

/-! The magnitude of an integer: a natural number as digits in normal form. Every magnitude comes
    from `ofDigits`, which drops the zeros at the top; each number has exactly one magnitude. -/

namespace Multiprecision

/-- A natural number as digits in normal form. -/
structure Magnitude where
  digits : Digits
  normal : Digits.Normal digits
  deriving DecidableEq

namespace Magnitude

instance : Repr Magnitude := ⟨fun m => reprPrec m.digits⟩

/-- The magnitude that the digits denote, whatever zeros they carry at the top. -/
def ofDigits (ds : Digits) : Magnitude := ⟨Digits.normalize ds, Digits.normal_normalize ds⟩

/-- The number zero, one digit. -/
def zero : Magnitude := ofDigits [0]

/-- The number one. -/
def one : Magnitude := ofDigits [1]

instance : Inhabited Magnitude := ⟨zero⟩

/-- Whether the magnitude is the one digit `0`. -/
def isZero (m : Magnitude) : Bool := m.digits == [0]

/-- The number of digits. -/
def length (m : Magnitude) : Nat := m.digits.length

/-- The natural number that a magnitude denotes. -/
def toNat (m : Magnitude) : Nat := Digits.value m.digits

/-- The digits of a number, without a zero at the top. -/
def digitsOfNat (n : Nat) : Digits :=
  if n = 0 then [] else Digit.low n :: digitsOfNat (n / Digit.base)
termination_by n
decreasing_by exact Nat.div_lt_self (by omega) (by decide)

/-- The magnitude of a natural number. -/
def ofNat (n : Nat) : Magnitude := ofDigits (digitsOfNat n)

/-- The order of two magnitudes. -/
def compare (a b : Magnitude) : Ordering := Digits.compare a.digits b.digits

instance : Ord Magnitude := ⟨compare⟩

/-- The sign of a magnitude that has the sign `s` unless it is zero. -/
def signed (s : Sign) (m : Magnitude) : Sign := if m.isZero then .zero else s

@[simp] theorem toNat_ofDigits (ds : Digits) : (ofDigits ds).toNat = Digits.value ds :=
  Digits.value_normalize ds

theorem toNat_eq_zero_iff (m : Magnitude) : m.toNat = 0 ↔ m.digits = [0] := by
  refine ⟨fun h => m.normal.2 ?_, fun h => by rw [toNat, h]; rfl⟩
  exact Digits.getLast?_of_value_eq_zero m.normal.1 h

/-- A magnitude is the digit `0` exactly when it denotes zero. -/
theorem isZero_iff (m : Magnitude) : m.isZero = true ↔ m.toNat = 0 := by
  rw [toNat_eq_zero_iff, isZero, beq_iff_eq]

/-- Two digits or more never denote zero. -/
theorem toNat_pos_of_one_lt_length {m : Magnitude} (long : 1 < m.length) : 0 < m.toNat := by
  apply Nat.pos_of_ne_zero
  intro zero
  rw [length, (toNat_eq_zero_iff m).1 zero] at long
  exact absurd long (by decide)

end Magnitude

/-- The sign of digits that have the sign `s` unless all of them are zero. -/
def Digits.signed (s : Sign) (ds : Digits) : Sign := if Digits.isZero ds then .zero else s

end Multiprecision
