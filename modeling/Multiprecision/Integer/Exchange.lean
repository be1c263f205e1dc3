import Multiprecision.Integer.Float
import Multiprecision.Integer.Native
import Multiprecision.Integer.Text

/-! Integers in exchanged data. An integer is written as its decimal numeral. It is read from a text,
    whose base is found as the numeral names it, from a native value, or from a floating point value
    without its fraction; data of other kinds are refused. -/

namespace Multiprecision

/-- One item of exchanged data. -/
inductive Datum where
  | text (s : String)
  | character (c : Char)
  | native (t : NativeType) (p : Native t)
  | float (x : BinaryFloat)
  | boolean (b : Bool)
  | unit
  | bytes (bs : List UInt8)
  | sequence
  deriving Repr

/-- Why an item is not read as an integer. -/
inductive Refusal where
  /-- The item is of a kind that holds integers, and holds none. -/
  | invalid (e : Error)
  /-- The item is of another kind, which has this name. -/
  | unexpected (kind : String)
  deriving DecidableEq, Repr

/-- The text of a refusal. -/
def Refusal.message : Refusal → String
  | .invalid e => e.message
  | .unexpected kind =>
    "invalid type: " ++ kind ++ ", expected an integer or formatted integer string"

namespace Integer

/-- The text that an integer is written as. -/
def toDatum (x : Integer) : Datum := .text x.decimal

/-- Reads an integer from a result, refusing its error. -/
def accept (r : Except Error Integer) : Except Refusal Integer := r.mapError .invalid

/-- The integer of an item. -/
def ofDatum : Datum → Except Refusal Integer
  | .text s => accept (ofString 0 s)
  | .character c => accept (ofString 0 (String.singleton c))
  | .native _ p => .ok (ofNative p)
  | .float x => accept (ofFloat .double x)
  | .boolean true => .error (.unexpected "boolean `true`")
  | .boolean false => .error (.unexpected "boolean `false`")
  | .unit => .error (.unexpected "unit value")
  | .bytes _ => .error (.unexpected "byte array")
  | .sequence => .error (.unexpected "sequence")

end Integer

end Multiprecision
