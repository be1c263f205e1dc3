import Multiprecision.Magnitude

/-! Integers as a sign and a magnitude. An integer is coherent when its sign is zero exactly when its
    magnitude is; coherent integers that denote the same number are equal. -/

namespace Multiprecision

/-- An integer as a sign and a magnitude. -/
structure Integer where
  sign : Sign
  magnitude : Magnitude
  deriving DecidableEq, Repr

namespace Integer

/-- The sign of an integer is zero exactly when its magnitude is. -/
def Coherent (x : Integer) : Prop := x.sign = .zero ↔ x.magnitude.isZero = true

instance (x : Integer) : Decidable x.Coherent := inferInstanceAs (Decidable (_ ↔ _))

/-- The number that an integer denotes. -/
def toInt (x : Integer) : Int := x.sign.toInt * x.magnitude.toNat

/-- The integer of a magnitude and a sign. A zero magnitude has the sign zero whatever is said, and the
    sign zero of another magnitude stands for a positive one. -/
def make (s : Sign) (m : Magnitude) : Integer :=
  if m.isZero then ⟨.zero, m⟩
  else match s with
    | .zero => ⟨.positive, m⟩
    | s => ⟨s, m⟩

/-- The integer of a magnitude. -/
def ofMagnitude (m : Magnitude) : Integer := make .positive m

/-- The integer zero. -/
def zero : Integer := ⟨.zero, Magnitude.zero⟩

/-- The integer one. -/
def one : Integer := ⟨.positive, Magnitude.one⟩

instance : Inhabited Integer := ⟨zero⟩

/-- The integer of a number. -/
def ofInt (n : Int) : Integer := make (Sign.ofNegative (decide (n < 0))) (Magnitude.ofNat n.natAbs)

/-- The digits of the magnitude. -/
def digits (x : Integer) : Digits := x.magnitude.digits

def isZero (x : Integer) : Bool := x.sign == .zero

def isOne (x : Integer) : Bool := x == one

def isNegative (x : Integer) : Bool := x.sign == .negative

def isPositive (x : Integer) : Bool := x.sign == .positive

/-- The integer of the opposite sign. -/
def neg (x : Integer) : Integer := ⟨-x.sign, x.magnitude⟩

instance : Neg Integer := ⟨neg⟩

/-- The absolute value. -/
def abs (x : Integer) : Integer := ⟨x.sign * x.sign, x.magnitude⟩

/-- The sign as an integer: one, zero, or the opposite of one. -/
def signum (x : Integer) : Integer :=
  match x.sign with
  | .negative => -one
  | .zero => zero
  | .positive => one

/-- The order of two integers: by sign, and by magnitude among those of one sign, where negative
    integers stand the other way round. -/
def compare (x y : Integer) : Ordering :=
  match Ord.compare x.sign y.sign with
  | .eq =>
    let o := Magnitude.compare x.magnitude y.magnitude
    if x.isNegative then o.swap else o
  | o => o

instance : Ord Integer := ⟨compare⟩

/-- The order of two integers as an order that may be missing: there always is one. -/
def compare? (x y : Integer) : Option Ordering := some (compare x y)

instance : LT Integer := ⟨fun x y => (compare? x y).any Ordering.isLT = true⟩
instance : LE Integer := ⟨fun x y => (compare? x y).any Ordering.isLE = true⟩

instance (x y : Integer) : Decidable (x < y) := inferInstanceAs (Decidable (_ = true))
instance (x y : Integer) : Decidable (x ≤ y) := inferInstanceAs (Decidable (_ = true))

/-- The integers of a list in ascending order. -/
def sorted (xs : List Integer) : List Integer := xs.mergeSort fun x y => (compare x y).isLE

end Integer

end Multiprecision
