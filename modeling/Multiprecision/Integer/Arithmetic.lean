import Multiprecision.Digits.Division
import Multiprecision.Integer

/-! Sums, differences, products and quotients of integers, by their signs and magnitudes. Quotients are
    taken toward zero, so that a remainder has the sign of its dividend. -/

namespace Multiprecision.Integer

/-- The sum of two signed magnitudes. Equal signs add the magnitudes and opposite signs subtract
    them; then the sign of the difference is counted from the sign of the first. -/
def addSigned (s : Sign) (a : Magnitude) (t : Sign) (b : Magnitude) : Integer :=
  match s, t with
  | _, .zero => ⟨s, a⟩
  | .zero, _ => ⟨t, b⟩
  | _, _ =>
    if s = t then ⟨s, Digits.add a.digits b.digits⟩
    else
      let (d, m) := Digits.subtract a.digits b.digits
      ⟨s * d, m⟩

/-- The sum of two integers. -/
def add (x y : Integer) : Integer := addSigned x.sign x.magnitude y.sign y.magnitude

/-- The difference of two integers. -/
def sub (x y : Integer) : Integer := addSigned x.sign x.magnitude (-y.sign) y.magnitude

/-- The product of two integers. -/
def mul (x y : Integer) : Integer :=
  if x.isZero || y.isZero then zero
  else ⟨x.sign * y.sign, Digits.multiply x.digits y.digits⟩

/-- Quotient and remainder, by the algorithm that a rule chooses. -/
def divRemBy (rule : DivisionRule) (x y : Integer) : Except Error (Integer × Integer) :=
  (Digits.divideSigned x.sign x.digits y.sign y.digits rule).map fun (q, r) =>
    (⟨q.1, q.2⟩, ⟨r.1, r.2⟩)

/-- Quotient and remainder. -/
def divRem (x y : Integer) : Except Error (Integer × Integer) := divRemBy .usual x y

/-- The quotient. -/
def div (x y : Integer) : Except Error Integer := (divRem x y).map (·.1)

/-- The remainder. -/
def rem (x y : Integer) : Except Error Integer := (divRem x y).map (·.2)

/-- The quotient, or nothing for a division by zero. -/
def div? (x y : Integer) : Option Integer := (div x y).toOption

/-- The remainder, or nothing for a division by zero. -/
def rem? (x y : Integer) : Option Integer := (rem x y).toOption

instance : Add Integer := ⟨add⟩
instance : Sub Integer := ⟨sub⟩
instance : Mul Integer := ⟨mul⟩

/-- How far `x` is above `y`, and zero if it is not. -/
def absSub (x y : Integer) : Integer :=
  match compare x y with
  | .gt => x - y
  | _ => zero

/-- The sum of a list. -/
def sum (xs : List Integer) : Integer := xs.foldl (· + ·) zero

/-- The product of a list. -/
def product (xs : List Integer) : Integer := xs.foldl (· * ·) one

/-! ### Operations by name -/

/-- The four operations and the remainder. -/
inductive Operation where | add | sub | mul | div | rem
  deriving DecidableEq, Repr

/-- An operation between two integers. -/
def operate : Operation → Integer → Integer → Except Error Integer
  | .add, x, y => .ok (x + y)
  | .sub, x, y => .ok (x - y)
  | .mul, x, y => .ok (x * y)
  | .div, x, y => x.div y
  | .rem, x, y => x.rem y

/-! ### Differences in place -/

/-- The operands whose storage a result may take over. -/
inductive Reuse where | neither | left | right | both
  deriving DecidableEq, Repr

/-- The difference of two integers that takes over the storage of the left one: where nothing is
    subtracted that one is the result as it stands. -/
def subInLeft (x y : Integer) : Integer := if y.isZero then x else x - y

/-- The difference of two integers that may take over the storage of operands. In the storage of the
    right one it is the opposite of the reversed difference. -/
def subReusing : Reuse → Integer → Integer → Integer
  | .neither, x, y => x - y
  | .left, x, y => subInLeft x y
  | .right, x, y => -subInLeft y x
  | .both, x, y => subInLeft x y

end Multiprecision.Integer
