import Multiprecision.Wide

/-! The sum of two lists of digits, from the lowest place up. Where both lists have a digit the
    carry joins their sum; above the shorter list it only ripples, and it stops at the first digit
    that takes it in. A carry out of the top is one more digit. -/

namespace Multiprecision.Digits

/-- The digits plus a carry. -/
def ripple : Digits → Bool → Digits
  | ds, false => ds
  | [], true => [1]
  | d :: ds, true =>
    let (s, c) := Digit.addCarry d 0 true
    s :: ripple ds c

/-- The digits of `as + bs + carry`. -/
def addCarrying : Digits → Digits → Bool → Digits
  | [], bs, carry => ripple bs carry
  | as, [], carry => ripple as carry
  | a :: as, b :: bs, carry =>
    let (s, c) := Digit.addCarry a b carry
    s :: addCarrying as bs c

/-- The magnitude of `as + bs`. -/
def add (as bs : Digits) : Magnitude := Magnitude.ofDigits (addCarrying as bs false)

/-- The magnitude of `as + w`, for a word `w`. -/
def addWide (as : Digits) (w : Wide) : Magnitude := add as w.digits

@[simp] theorem value_ripple (ds : Digits) (c : Bool) : value (ripple ds c) = value ds + c.toNat := by
  fun_induction ripple ds c with
  | case1 => simp
  | case2 => simp
  | case3 d ds s c h ih =>
    have law := Digit.addCarry_law d 0 true
    rw [h] at law
    simp only [value_cons, ih, Bool.toNat_true, Digit.base, UInt64.toNat_zero] at law ⊢
    omega

@[simp] theorem value_addCarrying (as bs : Digits) (c : Bool) :
    value (addCarrying as bs c) = value as + value bs + c.toNat := by
  fun_induction addCarrying as bs c with
  | case1 => simp
  | case2 => simp
  | case3 a as b bs carry s c h ih =>
    have law := Digit.addCarry_law a b carry
    rw [h] at law
    simp only [value_cons, ih, Digit.base] at law ⊢
    omega

@[simp] theorem toNat_add (as bs : Digits) : (add as bs).toNat = value as + value bs := by
  simp [add]

end Multiprecision.Digits
