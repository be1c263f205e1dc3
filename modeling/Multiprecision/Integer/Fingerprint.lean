import Multiprecision.Fingerprint
import Multiprecision.Integer

/-! The fingerprint of an integer. It is taken of a message that says the sign, the number of digits
    and the digits. Main statement: the message determines the integer, so that two different integers
    share a fingerprint only where two different messages do. -/

namespace Multiprecision

/-- The word that says a sign: `-1`, `0` or `1`, in two's complement. -/
def Sign.word : Sign → UInt64
  | .negative => Digit.max
  | .zero => 0
  | .positive => 1

theorem Sign.word_injective : ∀ {s t : Sign}, s.word = t.word → s = t := by
  intro s t
  cases s <;> cases t <;> decide

namespace Integer

/-- The message that says an integer: its sign, the number of its digits, and the digits. -/
def message (x : Integer) : List UInt64 :=
  x.sign.word :: UInt64.ofNat x.magnitude.length :: x.digits

/-- The fingerprint of an integer. -/
def fingerprint (x : Integer) : UInt64 := Fingerprint.ofWords x.message

instance : Hashable Integer := ⟨fingerprint⟩

theorem message_injective : ∀ {x y : Integer}, x.message = y.message → x = y
  | ⟨_, ⟨_, _⟩⟩, ⟨_, ⟨_, _⟩⟩, h => by
    obtain ⟨hs, hd⟩ := List.cons.inj h
    obtain rfl := Sign.word_injective hs
    obtain rfl := (List.cons.inj hd).2
    rfl

end Integer

end Multiprecision
