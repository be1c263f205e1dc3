import Multiprecision.Integer.Native
import Multiprecision.Proofs.Digits.Shift
import Multiprecision.Proofs.Integer.Arithmetic
import Multiprecision.Proofs.Wide

/-! Arithmetic with a native operand is arithmetic with the integer of the native value. An operand names
    an integer when it has its sign and its absolute value; every operation on the operand is the one on
    the integer that it names. -/

namespace Multiprecision

/-! ### Native values -/

namespace Native

variable {t : NativeType} (p : Native t)

theorem bits_le (w : Width) : w.bits ≤ 128 := by cases w <;> decide

/-- The absolute value of a native value fits in a word of two digits. -/
theorem natAbs_lt : p.toInt.natAbs < twoTo 128 := by
  have least := p.least_le
  have greatest := p.le_greatest
  have whole := twoTo_le (bits_le t.width)
  have half : twoTo (t.width.bits - 1) < twoTo 128 :=
    Nat.pow_lt_pow_right (by decide) (Nat.sub_one_lt_of_le (by cases t.width <;> decide) (bits_le _))
  rw [NativeType.least] at least
  rw [NativeType.greatest] at greatest
  cases hs : t.signed
  · simp only [hs, Bool.false_eq_true, if_false] at least greatest
    omega
  · simp only [hs, if_true] at least greatest
    omega

@[simp] theorem toNat_magnitude : p.magnitude.toNat = p.toInt.natAbs := by
  rw [magnitude, BitVec.toNat_ofNat]
  exact Nat.mod_eq_of_lt p.natAbs_lt

theorem toInt_sign : p.sign.toInt = p.toInt.sign := by
  rw [sign]
  rcases Int.lt_trichotomy p.toInt 0 with h | h | h
  · rw [if_neg (by omega), if_pos h, Int.sign_eq_neg_one_of_neg h]
    rfl
  · rw [if_pos h, h]
    rfl
  · rw [if_neg (by omega), if_neg (by omega), Int.sign_eq_one_of_pos h]
    rfl

end Native

namespace Integer

variable {t : NativeType} (p : Native t)

theorem coherent_ofNative : (ofNative p).Coherent := coherent_make ..

/-- The integer of a native value denotes it. -/
@[simp] theorem toInt_ofNative : (ofNative p).toInt = p.toInt := by
  rw [ofNative, toInt_ofNegative, Wide.toNat_magnitude, Native.toNat_magnitude]
  simp only [decide_eq_true_eq]
  split <;> omega

/-! ### Operands -/

/-- An operand names the integer that has its sign and its absolute value. -/
structure Operand.Names (q : Operand) (y : Integer) : Prop where
  sign : q.sign = y.sign
  word : q.word.toNat = y.magnitude.toNat

theorem names_ofNative : (Operand.ofNative p).Names (ofNative p) where
  sign := Sign.toInt_inj (by
    rw [← sign_toInt (coherent_ofNative p), toInt_ofNative]
    exact p.toInt_sign)
  word := by
    rw [← natAbs_toInt (coherent_ofNative p), toInt_ofNative]
    exact p.toNat_magnitude

section Names

variable {q : Operand} {y : Integer} (names : q.Names y)

include names

theorem Operand.Names.neg : q.neg.Names (-y) :=
  ⟨congrArg Sign.flip names.sign, names.word⟩

theorem value_word : Digits.value q.word.digits = Digits.value y.digits :=
  (Wide.value_digits _).trans names.word

theorem ofOperand_eq (hy : y.Coherent) : ofOperand q = y := by
  have magnitude : q.word.magnitude.toNat = y.magnitude.toNat :=
    (Wide.toNat_magnitude _).trans names.word
  refine (coherent_make ..).ext hy ?_
  rw [names.sign, toInt_make, magnitude]
  · rfl
  · rw [magnitude]
    exact ((coherent_iff y).1 hy).1

theorem addOperand_eq (hy : y.Coherent) (x : Integer) : x.addOperand q = x + y := by
  have sum : Digits.addWide x.digits q.word = Digits.add x.digits y.digits :=
    Magnitude.eq_of_toNat_eq (by
      rw [Digits.addWide, Digits.toNat_add, Digits.toNat_add, value_word names])
  have difference : Digits.subtractWide x.digits q.word = Digits.subtract x.digits y.digits :=
    Digits.subtract_congr _ (value_word names)
  have whole := ofOperand_eq names hy
  change _ = addSigned x.sign x.magnitude y.sign y.magnitude
  rw [addOperand, names.sign, sum, difference, whole]
  cases x
  cases y
  rename_i s a t b
  cases s <;> cases t <;> rfl

theorem mulOperand_eq (x : Integer) : x.mulOperand q = x * y := by
  have product : Digits.multiplyWide x.digits q.word = Digits.multiply x.digits y.digits :=
    Magnitude.eq_of_toNat_eq (by
      rw [Digits.multiplyWide, Digits.toNat_multiply, Digits.toNat_multiply, value_word names])
  change _ = mul x y
  rw [mulOperand, names.sign, product, mul]
  rfl

theorem divRemOperand_eq (x : Integer) : x.divRemOperand q = x.divRem y := by
  have quotients : Digits.quotientRemainder x.digits q.word.digits =
      Digits.quotientRemainder x.digits y.digits := by
    rw [Digits.quotientRemainder, Digits.quotientRemainder, value_word names]
  rw [divRemOperand, Digits.longDivideWide_eq, quotients, divRem, divRemBy, Digits.divideSigned,
    Digits.divide_eq, names.sign]
  cases Digits.quotientRemainder x.digits y.digits <;> rfl

end Names

/-! ### Operations -/

/-- A native operand on the right is the integer of its value. -/
theorem operateNative_eq (f : Operation) (x : Integer) :
    x.operateNative f p = operate f x (ofNative p) := by
  have names := names_ofNative p
  have hy := coherent_ofNative p
  cases f with
  | add => exact congrArg Except.ok (addOperand_eq names hy x)
  | sub => exact congrArg Except.ok (addOperand_eq names.neg (coherent_neg hy) x)
  | mul => exact congrArg Except.ok (mulOperand_eq names x)
  | div => exact congrArg (Except.map (·.1)) (divRemOperand_eq names x)
  | rem => exact congrArg (Except.map (·.2)) (divRemOperand_eq names x)

/-- A native operand on the left is the integer of its value. -/
theorem nativeOperate_eq (f : Operation) {x : Integer} (hx : x.Coherent) :
    nativeOperate f p x = operate f (ofNative p) x := by
  have names := names_ofNative p
  have hy := coherent_ofNative p
  cases f with
  | add =>
    refine congrArg Except.ok ((addOperand_eq names hy x).trans ?_)
    refine (coherent_add hx hy).ext (coherent_add hy hx) ?_
    rw [toInt_add, toInt_add, Int.add_comm]
  | sub =>
    refine congrArg Except.ok ?_
    have sum := addOperand_eq names.neg (coherent_neg hy) x
    refine (congrArg Neg.neg sum).trans ?_
    refine (coherent_neg (coherent_add hx (coherent_neg hy))).ext (coherent_sub hy hx) ?_
    rw [toInt_neg, toInt_add, toInt_neg, toInt_sub]
    omega
  | mul =>
    refine congrArg Except.ok ((mulOperand_eq names x).trans ?_)
    refine (coherent_mul hx hy).ext (coherent_mul hy hx) ?_
    rw [toInt_mul, toInt_mul, Int.mul_comm]
  | div => exact congrArg (div · x) (ofOperand_eq names hy)
  | rem => exact congrArg (rem · x) (ofOperand_eq names hy)

end Integer

end Multiprecision
