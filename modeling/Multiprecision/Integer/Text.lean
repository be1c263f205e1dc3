import Multiprecision.Integer
import Multiprecision.Numeral.Reading
import Multiprecision.Numeral.Writing

/-! Integers as text in a base. A numeral of a base up to 62 may begin with one sign. Base 0 stands for
    the base that the numeral names itself, after the sign. -/

namespace Multiprecision.Integer

/-- Takes a sign off the front of a numeral, where the base allows one: whether it is a minus, and the
    tokens after it. -/
def splitSign (base : Nat) : List UInt8 → Bool × List UInt8
  | [] => (false, [])
  | t :: ts =>
    if base ≤ Base.greatestSigned ∧ t = '-'.toUInt8 then (true, ts)
    else if base ≤ Base.greatestSigned ∧ t = '+'.toUInt8 then (false, ts)
    else (false, t :: ts)

/-- The magnitude of a numeral without a sign, in a base or in the base that it names for the base 0. -/
def parseUnsigned (base : Nat) (tokens : List UInt8) : Except Error Magnitude :=
  if base = 0 then
    let mark := Base.mark tokens
    Numeral.readIn mark.base (tokens.drop mark.length)
  else Numeral.read base tokens

/-- The integer of a numeral in a base, or in the base that it names for the base 0. -/
def parse (base : Nat) (tokens : List UInt8) : Except Error Integer :=
  let (negative, unsigned) := splitSign base tokens
  (parseUnsigned base unsigned).map (make (Sign.ofNegative negative))

/-- The bytes of a string. -/
def utf8 (s : String) : List UInt8 := s.toByteArray.data.toList

/-- The integer of a string in a base. -/
def ofString (base : Nat) (s : String) : Except Error Integer := parse base (utf8 s)

/-- The integer of bytes in a base, if they are the bytes of a string and this is a numeral. -/
def ofBytes? (base : Nat) (bytes : List UInt8) : Option Integer :=
  (String.fromUTF8? ⟨bytes.toArray⟩).bind fun s => (ofString base s).toOption

/-- The tokens of an integer in a base, after a minus for a negative one. -/
def tokens (base : Nat) (x : Integer) : Except Error (List UInt8) :=
  (Numeral.write base x.digits).map fun ts => if x.isNegative then '-'.toUInt8 :: ts else ts

/-- Bytes below 128 as a string. -/
def ofAscii (bytes : List UInt8) : String := String.ofList (bytes.map fun b => Char.ofNat b.toNat)

/-- The string of an integer in a base. -/
def toText (base : Nat) (x : Integer) : Except Error String := (x.tokens base).map ofAscii

/-- The tokens of a magnitude in a supported base. -/
def magnitudeTokens (b : Base) (x : Integer) : List UInt8 :=
  (Numeral.valuesIn b x.digits).map (valueToken b.toNat)

/-- The string of an integer in base 10. -/
def decimal (x : Integer) : String :=
  let ts := x.magnitudeTokens .decimal
  ofAscii (if x.isNegative then '-'.toUInt8 :: ts else ts)

instance : ToString Integer := ⟨decimal⟩

/-- The largest number of digits that a description shows as a decimal numeral. -/
def shortDescription : Nat := 7

/-- The text that describes an integer: its decimal numeral, or the sign and the digits of a long one. -/
def describe (x : Integer) : String :=
  if x.magnitude.length ≤ shortDescription then "Integer(\"" ++ x.decimal ++ "\")"
  else
    let sign := match x.sign with
      | .negative => "Negative"
      | .zero => "Zero"
      | .positive => "Positive"
    "Integer(" ++ sign ++ ", [" ++ ", ".intercalate (x.digits.map fun d => toString d.toNat) ++ "])"

end Multiprecision.Integer
