import Multiprecision.Power
import Multiprecision.Wide

/-! The native integers of a machine: their types, by width and signedness, and their values, each a
    number within the range of its type. No value is longer than a word of two digits. -/

namespace Multiprecision

/-- The width of a native integer. A pointer has the width of a digit. -/
inductive Width where | w8 | w16 | w32 | w64 | w128 | pointer
  deriving DecidableEq, Repr

/-- The number of bits. -/
def Width.bits : Width → Nat
  | .w8 => 8
  | .w16 => 16
  | .w32 => 32
  | .w64 => 64
  | .w128 => 128
  | .pointer => 64

/-- A type of native integers. -/
structure NativeType where
  signed : Bool
  width : Width
  deriving DecidableEq, Repr

namespace NativeType

/-- The smallest value of a type. -/
def least (t : NativeType) : Int := if t.signed then -(twoTo (t.width.bits - 1) : Int) else 0

/-- The largest value of a type. -/
def greatest (t : NativeType) : Int :=
  if t.signed then (twoTo (t.width.bits - 1) : Int) - 1 else (twoTo t.width.bits : Int) - 1

/-- The type of the same signedness with 128 bits for such a type, and with 64 bits for others. -/
def wide (t : NativeType) : NativeType := ⟨t.signed, if t.width = .w128 then .w128 else .w64⟩

end NativeType

/-- A value of a native type. -/
structure Native (t : NativeType) where
  toInt : Int
  least_le : t.least ≤ toInt
  le_greatest : toInt ≤ t.greatest
  deriving DecidableEq, Repr

namespace Native

/-- The value of a number within the range of the type. -/
def ofInt? (t : NativeType) (n : Int) : Option (Native t) :=
  if h : t.least ≤ n ∧ n ≤ t.greatest then some ⟨n, h.1, h.2⟩ else none

/-- The sign of a value. -/
def sign {t : NativeType} (p : Native t) : Sign :=
  if p.toInt = 0 then .zero else if p.toInt < 0 then .negative else .positive

/-- The absolute value, as a word of two digits. -/
def magnitude {t : NativeType} (p : Native t) : Wide := BitVec.ofNat 128 p.toInt.natAbs

end Native

end Multiprecision
