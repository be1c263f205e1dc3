import Multiprecision.Integer.Arithmetic
import Multiprecision.Native

/-! Integers and native integers: conversions both ways, and arithmetic of an integer with a native
    operand, which is taken apart into a sign and a word and never made an integer of its own unless
    it is divided. -/

namespace Multiprecision.Integer

/-! ### Conversions -/

/-- The integer of a native value. -/
def ofNative {t : NativeType} (p : Native t) : Integer :=
  make (Sign.ofNegative (decide (p.toInt < 0))) p.magnitude.magnitude

/-- The magnitude as a word, if it has at most two digits. -/
def magnitudeWord? (x : Integer) : Option Wide :=
  if 2 < x.magnitude.length then none else some (Wide.ofDigits x.digits)

/-- The number as a signed word of two digits, if it is in range. A negative one is the opposite of its
    magnitude among the signed words, where the least number is its own opposite. -/
def toSignedWord? (x : Integer) : Option Int :=
  x.magnitudeWord?.bind fun m =>
    match x.sign with
    | .negative => if m.toNat ≤ twoTo 127 then some (-m).toInt else none
    | _ => if m.toNat < twoTo 127 then some m.toNat else none

/-- The number as an unsigned word of two digits, if it is in range. -/
def toUnsignedWord? (x : Integer) : Option Int :=
  if x.isNegative then none else x.magnitudeWord?.map fun m => (m.toNat : Int)

/-- The number in a native type, if it is in its range: the word of the same signedness is narrowed to
    64 bits first, where the type has no more. -/
def toNative? (t : NativeType) (x : Integer) : Option (Native t) :=
  ((if t.signed then x.toSignedWord? else x.toUnsignedWord?).bind (Native.ofInt? t.wide)).bind
    fun p => Native.ofInt? t p.toInt

/-- The number modulo `2 ^ 128`, as a word. -/
def wrapUnsigned (x : Integer) : Wide :=
  let m := Wide.ofDigits x.digits
  if x.isNegative then -m else m

/-- The number modulo `2 ^ 128`, as a signed word. -/
def wrapSigned (x : Integer) : Int := x.wrapUnsigned.toInt

/-! ### Arithmetic -/

/-- An operand of one word: its sign and its absolute value. -/
structure Operand where
  sign : Sign
  word : Wide
  deriving DecidableEq, Repr

/-- A native value as an operand. -/
def Operand.ofNative {t : NativeType} (p : Native t) : Operand := ⟨p.sign, p.magnitude⟩

/-- The operand of the opposite sign. -/
def Operand.neg (p : Operand) : Operand := ⟨-p.sign, p.word⟩

/-- The operand as an integer. -/
def ofOperand (p : Operand) : Integer := make p.sign p.word.magnitude

/-- The sum of an integer and an operand. -/
def addOperand (x : Integer) (p : Operand) : Integer :=
  match x.sign, p.sign with
  | _, .zero => x
  | .zero, _ => ofOperand p
  | s, t =>
    if s = t then ⟨s, Digits.addWide x.digits p.word⟩
    else
      let (d, m) := Digits.subtractWide x.digits p.word
      ⟨s * d, m⟩

/-- An integer minus an operand. -/
def subOperand (x : Integer) (p : Operand) : Integer := x.addOperand p.neg

/-- An operand minus an integer: the opposite of the integer minus the operand. -/
def operandSub (p : Operand) (x : Integer) : Integer := -x.addOperand p.neg

/-- The product of an integer and an operand. -/
def mulOperand (x : Integer) (p : Operand) : Integer :=
  if x.isZero || p.sign == .zero then zero
  else ⟨x.sign * p.sign, Digits.multiplyWide x.digits p.word⟩

/-- Quotient and remainder of an integer by an operand, by long division. -/
def divRemOperand (x : Integer) (p : Operand) : Except Error (Integer × Integer) :=
  (Digits.longDivideWide x.digits p.word).map fun (q, r) =>
    (⟨q.signed (x.sign * p.sign), q⟩, ⟨r.signed x.sign, r⟩)

/-- An operation between an integer and a native value. -/
def operateNative (f : Operation) (x : Integer) {t : NativeType} (p : Native t) :
    Except Error Integer :=
  let p := Operand.ofNative p
  match f with
  | .add => .ok (x.addOperand p)
  | .sub => .ok (x.subOperand p)
  | .mul => .ok (x.mulOperand p)
  | .div => (x.divRemOperand p).map (·.1)
  | .rem => (x.divRemOperand p).map (·.2)

/-- An operation between a native value and an integer. -/
def nativeOperate (f : Operation) {t : NativeType} (p : Native t) (x : Integer) :
    Except Error Integer :=
  let p := Operand.ofNative p
  match f with
  | .add => .ok (x.addOperand p)
  | .sub => .ok (operandSub p x)
  | .mul => .ok (x.mulOperand p)
  | .div => (ofOperand p).div x
  | .rem => (ofOperand p).rem x

/-! ### Order -/

/-- The order of an integer to a native value. -/
def compareNative (x : Integer) {t : NativeType} (p : Native t) : Ordering := compare x (ofNative p)

/-- The order of a native value to an integer. -/
def nativeCompare {t : NativeType} (p : Native t) (x : Integer) : Ordering := compare (ofNative p) x

/-- Whether an integer is a native value. -/
def eqNative (x : Integer) {t : NativeType} (p : Native t) : Bool := x == ofNative p

/-- Whether a native value is an integer: whether the integer is it. -/
def nativeEq {t : NativeType} (p : Native t) (x : Integer) : Bool := x.eqNative p

end Multiprecision.Integer
