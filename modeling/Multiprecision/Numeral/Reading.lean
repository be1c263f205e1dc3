import Multiprecision.Base
import Multiprecision.Chunks
import Multiprecision.Magnitude
import Multiprecision.Token

/-! Reading a numeral: its tokens, the highest place first, become a magnitude. The zeros at the front
    are passed over, and the rest is read in chunks whose value fits in a digit; after each chunk the
    digits so far are multiplied by the power of the base that the chunk spans. -/

namespace Multiprecision.Numeral

/-- The value of a token below the base, or the error that names it. -/
def readToken (b : Base) (t : UInt8) : Except Error Nat :=
  match tokenValue b.toNat t with
  | some v => if v < b.toNat then .ok v else .error (.invalidToken t b.toNat)
  | none => .error (.invalidToken t b.toNat)

/-- The value of a chunk after the value `v`, in one digit. -/
def readChunk (b : Base) : List UInt8 → Digit → Except Error Digit
  | [], v => .ok v
  | t :: ts, v =>
    match readToken b t with
    | .ok x => readChunk b ts (v * b.digit + Digit.low x)
    | .error e => .error e

/-- The digits of `ds * m + carry`. -/
def multiplyAdd (m : Digit) : Digits → Digit → Digits
  | [], carry => if carry = 0 then [] else [carry]
  | d :: ds, carry =>
    let (hi, lo) := Digit.mulAdd d m carry 0
    lo :: multiplyAdd m ds hi

/-- The power of the base that a chunk spans. -/
def spanned (b : Base) (chunk : List UInt8) : Digit :=
  if chunk.length = b.chunkLength then b.chunkPower else Digit.low (b.power chunk.length)

/-- The digits after the chunks that are left. -/
def readChunks (b : Base) : List (List UInt8) → Digits → Except Error Digits
  | [], ds => .ok ds
  | c :: cs, ds =>
    match readChunk b c 0 with
    | .ok v => readChunks b cs (multiplyAdd (spanned b c) ds v)
    | .error e => .error e

/-- The tokens from the first one on that does not stand for zero. -/
def significant (b : Base) (tokens : List UInt8) : List UInt8 :=
  tokens.dropWhile fun t => tokenValue b.toNat t == some 0

/-- The magnitude of a numeral in a supported base. -/
def readIn (b : Base) (tokens : List UInt8) : Except Error Magnitude :=
  if tokens.isEmpty then .error .emptyNumeral
  else (readChunks b (chunks b.chunkLength (significant b tokens)) []).map Magnitude.ofDigits

/-- The magnitude of a numeral in a base. -/
def read (base : Nat) (tokens : List UInt8) : Except Error Magnitude :=
  (Base.ofNat base).bind fun b => readIn b tokens

end Multiprecision.Numeral
