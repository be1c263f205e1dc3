import Multiprecision.Integer.Float
import Multiprecision.Integer.Native
import Multiprecision.Integer.Text

/-! Registers that hold integers, and the steps that compute with them. A step reads registers, writes
    one or two of them and answers what it wrote. A step that fails says why and writes nothing. -/

namespace Multiprecision

/-- The integers in the registers, numbered from 0. -/
abbrev Registers := List Integer

namespace Registers

/-- The integer in a register. -/
def get (regs : Registers) (i : Nat) : Integer := regs.getD i .zero

/-- On which side of an operation the native value stands. -/
inductive Side where | left | right
  deriving DecidableEq, Repr

/-- One step. The register written comes last, but for assignments, which write their left operand. -/
inductive Step where
  | operate (f : Integer.Operation) (x y d : Nat)
  /-- A difference in the storage of operands. -/
  | subReusing (r : Integer.Reuse) (x y d : Nat)
  | assign (f : Integer.Operation) (d y : Nat)
  | native (f : Integer.Operation) (side : Side) (x : Nat) (t : NativeType) (p : Native t) (d : Nat)
  /-- Quotient and remainder, each to a register. -/
  | divRem (x y d e : Nat)
  /-- A quotient that may be missing. -/
  | checkedDiv (x y d : Nat)
  /-- A remainder that may be missing. -/
  | checkedRem (x y d : Nat)
  | neg (x d : Nat)
  | abs (x d : Nat)
  | signum (x d : Nat)
  | absSub (x y d : Nat)
  | sum (xs : List Nat) (d : Nat)
  | product (xs : List Nat) (d : Nat)
  | setZero (d : Nat)
  | setOne (d : Nat)
  | parse (base : Nat) (text : String) (d : Nat)
  | subFloat (x : Nat) (value : BinaryFloat) (d : Nat)
  /-- The numeral of a register in a base, read back. -/
  | reread (base : Nat) (x d : Nat)
  deriving Repr

/-- What a step answers. -/
inductive Answer where
  | one (x : Integer)
  | two (x y : Integer)
  | numeral (text : String) (x : Integer)
  deriving DecidableEq, Repr

/-- How a step fails. -/
inductive Failure where
  /-- An operator has no result. -/
  | stopped (e : Error)
  /-- A function refuses its arguments. -/
  | refused (e : Error)
  /-- A result is missing. -/
  | missing
  deriving DecidableEq, Repr

/-- Writes one register and answers what it holds. -/
def write (regs : Registers) (d : Nat) (x : Integer) : Answer × Registers := (.one x, regs.set d x)

/-- What a step answers, and the registers after it. -/
def step (regs : Registers) : Step → Except Failure (Answer × Registers)
  | .operate f x y d =>
    ((Integer.operate f (regs.get x) (regs.get y)).mapError .stopped).map (regs.write d)
  | .subReusing r x y d => .ok (regs.write d (Integer.subReusing r (regs.get x) (regs.get y)))
  | .assign f d y =>
    ((Integer.operate f (regs.get d) (regs.get y)).mapError .stopped).map (regs.write d)
  | .native f .right x _ p d =>
    (((regs.get x).operateNative f p).mapError .stopped).map (regs.write d)
  | .native f .left x _ p d =>
    ((Integer.nativeOperate f p (regs.get x)).mapError .stopped).map (regs.write d)
  | .divRem x y d e =>
    (((regs.get x).divRem (regs.get y)).mapError .refused).map fun (q, r) =>
      let after : Registers := (regs.set d q).set e r
      (.two (after.get d) (after.get e), after)
  | .checkedDiv x y d =>
    match (regs.get x).div? (regs.get y) with
    | some q => .ok (regs.write d q)
    | none => .error .missing
  | .checkedRem x y d =>
    match (regs.get x).rem? (regs.get y) with
    | some r => .ok (regs.write d r)
    | none => .error .missing
  | .neg x d => .ok (regs.write d (-regs.get x))
  | .abs x d => .ok (regs.write d (regs.get x).abs)
  | .signum x d => .ok (regs.write d (regs.get x).signum)
  | .absSub x y d => .ok (regs.write d ((regs.get x).absSub (regs.get y)))
  | .sum xs d => .ok (regs.write d (Integer.sum (xs.map regs.get)))
  | .product xs d => .ok (regs.write d (Integer.product (xs.map regs.get)))
  | .setZero d => .ok (regs.write d .zero)
  | .setOne d => .ok (regs.write d .one)
  | .parse base text d =>
    ((Integer.ofString base text).mapError .refused).map (regs.write d)
  | .subFloat x value d =>
    (((regs.get x).subFloat .double value).mapError .refused).map (regs.write d)
  | .reread base x d =>
    (((regs.get x).toText base).mapError .refused).bind fun text =>
      ((Integer.ofString base text).mapError .refused).map fun n => (.numeral text n, regs.set d n)

/-- What the steps of a run answer, and the registers after it. A step that fails leaves them as they
    were. -/
def run : Registers → List Step → List (Except Failure Answer) × Registers
  | regs, [] => ([], regs)
  | regs, s :: ss =>
    match regs.step s with
    | .ok (a, next) =>
      let (answers, last) := run next ss
      (.ok a :: answers, last)
    | .error e =>
      let (answers, last) := run regs ss
      (.error e :: answers, last)

end Registers

end Multiprecision
