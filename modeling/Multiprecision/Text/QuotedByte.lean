/-! A byte as a quoted character, for messages. The byte is read as the Latin-1 character of its
    number; what does not print is escaped. -/

namespace Multiprecision.Text

/-- The digit of base 16 with the given value. -/
def hexDigit (v : Nat) : Char :=
  if v < 10 then Char.ofNat (48 + v) else Char.ofNat (87 + v)

/-- The number of a byte in base 16, with the fewest digits. -/
def hexNumber (n : Nat) : List Char :=
  if n < 16 then [hexDigit n] else [hexDigit (n / 16), hexDigit (n % 16)]

/-- Whether a byte is a Latin-1 character that prints. -/
def isPrinting (b : UInt8) : Bool :=
  (0x20 ≤ b && b < 0x7f) || (0xa0 < b && b != 0xad)

/-- The character between which a byte stands. -/
def quote : Char := Char.ofNat 39

/-- The characters that stand for a byte between quotes. -/
def escapedByte (b : UInt8) : List Char :=
  if b = 0 then ['\\', '0']
  else if b = 9 then ['\\', 't']
  else if b = 10 then ['\\', 'n']
  else if b = 13 then ['\\', 'r']
  else if b = 39 then ['\\', quote]
  else if b = 92 then ['\\', '\\']
  else if isPrinting b then [Char.ofNat b.toNat]
  else ['\\', 'u', '\x7b'] ++ hexNumber b.toNat ++ ['\x7d']

/-- A byte as a character in single quotes. -/
def quotedByte (b : UInt8) : String := String.ofList ([quote] ++ escapedByte b ++ [quote])

end Multiprecision.Text
