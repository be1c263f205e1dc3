import Multiprecision.Integer

/-! Integers of 32-bit words. Each digit of an integer is two words, and the exchange both ways goes
    through what such integers are asked for: to be made of words and a sign, and to give their sign and
    digits. One kind of them holds a number as words, the lowest first, without a zero at the top and
    without any word for zero, beside a sign that is zero for zero only. -/

namespace Multiprecision

/-- Words without the zeros at the top. -/
def trimWords : List UInt32 → List UInt32
  | [] => []
  | w :: ws =>
    match trimWords ws with
    | [] => if w = 0 then [] else [w]
    | v :: vs => w :: v :: vs

/-- An integer of words. -/
structure WordInteger where
  sign : Sign
  words : List UInt32
  deriving DecidableEq, Repr

namespace WordInteger

/-- The number that words denote. -/
def value : List UInt32 → Nat
  | [] => 0
  | w :: ws => w.toNat + 4294967296 * value ws

/-- The number that an integer of words denotes. -/
def toInt (z : WordInteger) : Int := z.sign.toInt * value z.words

/-- The integer of words and a sign; either of them makes it zero. -/
def make (s : Sign) (ws : List UInt32) : WordInteger :=
  match s, trimWords ws with
  | .zero, _ => ⟨.zero, []⟩
  | _, [] => ⟨.zero, []⟩
  | s, w :: ws => ⟨s, w :: ws⟩

/-- Words joined in pairs to digits. -/
def joinPairs : List UInt32 → Digits
  | [] => []
  | [lo] => [lo.toUInt64]
  | lo :: hi :: ws => ((hi.toUInt64 <<< 32) ||| lo.toUInt64) :: joinPairs ws

/-- Digits split into two words each. -/
def splitPairs : Digits → List UInt32
  | [] => []
  | d :: ds => d.toUInt32 :: (d >>> 32).toUInt32 :: splitPairs ds

end WordInteger

/-- A kind of integers of 32-bit words: natural numbers `N`, and integers `Z` of a sign and one of
    these. -/
structure WordNumbers (N Z : Type) where
  /-- The natural number of words, the lowest first. -/
  ofWords : List UInt32 → N
  /-- The digits of a natural number, the lowest first. -/
  toDigits : N → Digits
  ofParts : Sign → N → Z
  sign : Z → Sign
  magnitude : Z → N

/-- The integers of words as lists of words. -/
def WordInteger.numbers : WordNumbers (List UInt32) WordInteger :=
  ⟨trimWords, joinPairs, make, sign, words⟩

namespace Integer

section Exchange

variable {N Z : Type} (W : WordNumbers N Z)

/-- The integer of a natural number of words. -/
def ofNatural (n : N) : Integer := make .positive (Magnitude.ofDigits (W.toDigits n))

/-- The integer of an integer of words. -/
def ofNumber (z : Z) : Integer := make (W.sign z) (Magnitude.ofDigits (W.toDigits (W.magnitude z)))

/-- The integer of words of an integer. -/
def toNumber (x : Integer) : Z := W.ofParts x.sign (W.ofWords (WordInteger.splitPairs x.digits))

end Exchange

/-- The integer of words that are never negative. -/
def ofWords (ws : List UInt32) : Integer :=
  ofNatural WordInteger.numbers (WordInteger.numbers.ofWords ws)

/-- The integer of an integer of words in a list. -/
def ofWordInteger (z : WordInteger) : Integer := ofNumber WordInteger.numbers z

/-- The integer of words in a list of an integer. -/
def toWordInteger (x : Integer) : WordInteger := toNumber WordInteger.numbers x

end Integer

end Multiprecision
