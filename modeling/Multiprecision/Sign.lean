/-! The sign of an integer, with zero as a sign of its own. Signs multiply as `-1`, `0` and `1` do,
    and are ordered as these are. -/

namespace Multiprecision

/-- The sign of an integer. -/
inductive Sign where | negative | zero | positive
  deriving DecidableEq, Repr, Ord

namespace Sign

/-- The sign of an integer of which nothing is said. -/
def usual : Sign := .zero

/-- The number `-1`, `0` or `1` that a sign stands for. -/
def toInt : Sign → Int
  | .negative => -1
  | .zero => 0
  | .positive => 1

/-- The opposite sign. -/
def flip : Sign → Sign
  | .negative => .positive
  | .zero => .zero
  | .positive => .negative

/-- The sign of a product. -/
def mul : Sign → Sign → Sign
  | .zero, _ => .zero
  | _, .zero => .zero
  | .positive, .positive => .positive
  | .negative, .negative => .positive
  | _, _ => .negative

instance : Inhabited Sign := ⟨usual⟩
instance : Neg Sign := ⟨flip⟩
instance : Mul Sign := ⟨mul⟩

/-- The sign of a number that is `negative`, given that it is not zero. -/
def ofNegative (negative : Bool) : Sign := if negative then .negative else .positive

@[simp] theorem toInt_neg (s : Sign) : (-s).toInt = -s.toInt := by cases s <;> rfl

@[simp] theorem toInt_mul (s t : Sign) : (s * t).toInt = s.toInt * t.toInt := by
  cases s <;> cases t <;> rfl

end Sign

end Multiprecision
