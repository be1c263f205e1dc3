import Multiprecision.Integer.Text

/-! Integers laid out in a field. The parts stand in this order: sign, mark of the base, zeros, numeral.
    Zeros fill the field up to its width between the mark and the numeral; any other filling stands
    before or after the parts. -/

namespace Multiprecision.Integer

/-- Where the parts stand in a wider field. -/
inductive Alignment where | left | center | right
  deriving DecidableEq, Repr

/-- The numerals that a layout can show. -/
inductive Style where | decimal | binary | octal | lowerHex | upperHex
  deriving DecidableEq, Repr

/-- The base of a style. -/
def Style.base : Style → Base
  | .decimal => .decimal
  | .binary => .binary
  | .octal => .octal
  | .lowerHex => .hexadecimal
  | .upperHex => .hexadecimal

/-- The mark of the base of a style. -/
def Style.mark : Style → List Char
  | .decimal => []
  | .binary => ['0', 'b']
  | .octal => ['0', 'o']
  | .lowerHex => ['0', 'x']
  | .upperHex => ['0', 'x']

/-- How an integer is laid out. -/
structure Layout where
  style : Style
  /-- The character that fills a field. -/
  fill : Char
  alignment : Alignment
  /-- Whether an integer that is not negative has the sign `+`. -/
  plus : Bool
  /-- Whether the mark of the base is shown. -/
  marked : Bool
  /-- Whether zeros fill the field. -/
  zeros : Bool
  /-- The least number of characters. -/
  width : Nat
  deriving DecidableEq, Repr

/-- The layout of a style without any option. -/
def Layout.plain (s : Style) : Layout := ⟨s, ' ', .right, false, false, false, 0⟩

/-- A letter as a capital letter; other tokens as they are. -/
def capital (t : UInt8) : UInt8 :=
  if 'a'.toUInt8 ≤ t ∧ t ≤ 'z'.toUInt8 then t - 32 else t

/-- The numeral of the magnitude in a style. -/
def numeral (s : Style) (x : Integer) : List Char :=
  let ts := x.magnitudeTokens s.base
  let ts := if s = .upperHex then ts.map capital else ts
  ts.map fun t => Char.ofNat t.toNat

/-- The sign that a layout shows. -/
def Layout.signOf (l : Layout) (x : Integer) : List Char :=
  if x.isNegative then ['-'] else if l.plus then ['+'] else []

/-- How many of the filling characters stand before the parts. -/
def Alignment.before : Alignment → Nat → Nat
  | .left, _ => 0
  | .center, n => n / 2
  | .right, n => n

/-- The characters of an integer in a layout. -/
def layOut (l : Layout) (x : Integer) : List Char :=
  let lead := l.signOf x ++ (if l.marked then l.style.mark else [])
  let body := x.numeral l.style
  let room := l.width - (lead.length + body.length)
  if l.zeros then lead ++ List.replicate room '0' ++ body
  else
    let before := l.alignment.before room
    List.replicate before l.fill ++ lead ++ body ++ List.replicate (room - before) l.fill

/-- The string of an integer in a layout. -/
def render (l : Layout) (x : Integer) : String := String.ofList (x.layOut l)

end Multiprecision.Integer
