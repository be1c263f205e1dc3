/-! The tokens of numerals: the bytes that stand for the values below a base. Bases up to 36 use digits
    and then letters, in either case; larger bases use capital letters, small letters, digits, `+` and
    `/`. -/

namespace Multiprecision

/-- The two ways of writing values as bytes. -/
inductive Alphabet where
  /-- Digits, then letters of either case. -/
  | caseless
  /-- Capital letters, small letters, digits, `+` and `/`. -/
  | mixed
  deriving DecidableEq, Repr

namespace Alphabet

/-- The largest base that is written without regard to case. -/
def greatestCaseless : Nat := 36

/-- The alphabet of a base. -/
def ofBase (base : Nat) : Alphabet := if base ≤ greatestCaseless then .caseless else .mixed

/-- The number of values that an alphabet can write. -/
def size : Alphabet → Nat
  | .caseless => 36
  | .mixed => 64

/-- The token of a value, which is below the size of the alphabet. -/
def token : Alphabet → Nat → UInt8
  | .caseless, v => if v < 10 then '0'.toUInt8 + v.toUInt8 else 'a'.toUInt8 + (v - 10).toUInt8
  | .mixed, v =>
    if v < 26 then 'A'.toUInt8 + v.toUInt8
    else if v < 52 then 'a'.toUInt8 + (v - 26).toUInt8
    else if v < 62 then '0'.toUInt8 + (v - 52).toUInt8
    else if v = 62 then '+'.toUInt8
    else '/'.toUInt8

/-- The place of a byte from `first` on, if it is not after `last`. -/
def place (first last : Char) (t : UInt8) : Option Nat :=
  if first.toUInt8 ≤ t ∧ t ≤ last.toUInt8 then some (t - first.toUInt8).toNat else none

/-- The value of a token, if it has one. -/
def value : Alphabet → UInt8 → Option Nat
  | .caseless, t =>
    (place '0' '9' t) <|> (place 'a' 'z' t).map (· + 10) <|> (place 'A' 'Z' t).map (· + 10)
  | .mixed, t =>
    (place 'A' 'Z' t) <|> (place 'a' 'z' t).map (· + 26) <|> (place '0' '9' t).map (· + 52)
      <|> (place '+' '+' t).map (· + 62) <|> (place '/' '/' t).map (· + 63)

/-- Every token of an alphabet, by value. -/
def tokens (a : Alphabet) : List UInt8 := (List.range a.size).map a.token

/-- The value of every byte. -/
def values (a : Alphabet) : List (Option Nat) := (List.range 256).map fun n => a.value n.toUInt8

/-- The number that stands for no value where an alphabet is tabulated. -/
def noValue : Alphabet → Int
  | .caseless => 255
  | .mixed => -1

/-- The table of an alphabet: the value of every byte, or the number that stands for none. -/
def table (a : Alphabet) : List Int :=
  a.values.map fun v => (v.map Int.ofNat).getD a.noValue

/-- The value of a token in a base as a number. A byte without a value has the number 255 in bases
    written without regard to case and `2^32 - 1` in the others. -/
def code (base : Nat) (t : UInt8) : Nat :=
  match ofBase base with
  | .caseless => (value .caseless t).getD 255
  | .mixed => (value .mixed t).getD 4294967295

end Alphabet

/-- The token of a value in a base. -/
def valueToken (base v : Nat) : UInt8 := (Alphabet.ofBase base).token v

/-- The value of a token in a base, if it has one. -/
def tokenValue (base : Nat) (t : UInt8) : Option Nat := (Alphabet.ofBase base).value t

end Multiprecision
