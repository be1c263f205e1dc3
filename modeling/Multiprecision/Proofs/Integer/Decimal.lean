import Multiprecision.Integer.Exchange
import Multiprecision.Integer.Layout
import Multiprecision.Proofs.Integer.Grammar

/-! Decimal numerals are safe where the base is found from the numeral: what is written of an integer
    without options never begins with `0`, unless it is `0` itself, and so it names no other base. Main
    statement: such text is read as the integer it was written of, also by way of exchanged data. -/

namespace Multiprecision.Integer

/-! ### The text -/

section Text

variable (x : Integer)

/-- Without options, the numeral stands after the minus of a negative integer. -/
theorem layOut_plain (s : Style) :
    x.layOut (.plain s) = (if x.isNegative then ['-'] else []) ++ x.numeral s := by
  simp [layOut, Layout.plain, Layout.signOf, Alignment.before]

theorem render_plain : x.render (.plain .decimal) = x.decimal := by
  rw [render, layOut_plain, decimal, ofAscii]
  cases x.isNegative <;> rfl

theorem toText_decimal : x.toText Base.decimal.toNat = .ok x.decimal :=
  congrArg (Except.map ofAscii) (tokens_eq .decimal x)

theorem utf8_decimal :
    utf8 x.decimal =
      if x.isNegative then '-'.toUInt8 :: x.magnitudeTokens .decimal else x.magnitudeTokens .decimal := by
  obtain ⟨t, written, bytes⟩ := toText_eq .decimal x
  obtain rfl : x.decimal = t := Except.ok.inj ((toText_decimal x).symm.trans written)
  exact bytes

/-- The sign is taken off, and leaves the numeral of the magnitude. -/
theorem splitSign_decimal {base : Nat} (signed : base ≤ Base.greatestSigned) :
    splitSign base (utf8 x.decimal) = (x.isNegative, x.magnitudeTokens .decimal) := by
  rw [utf8_decimal]
  cases x.isNegative with
  | false =>
    apply splitSign_of_ne_sign
    intro _
    exact ne_sign_of_mem_magnitudeTokens .decimal (by decide)
  | true => exact splitSign_minus signed _

end Text

/-! ### No other base -/

/-- The tokens of a magnitude denote it. -/
theorem tokens_magnitudeTokens (b : Base) (x : Integer) :
    Numeral.Tokens b (x.magnitudeTokens b) x.magnitude.toNat :=
  Numeral.readIn_eq_ok_iff.1 (readIn_magnitudeTokens b x)

/-- A decimal numeral names no other base: it begins with `0` only if that is all of it. -/
theorem mark_magnitudeTokens (x : Integer) :
    Base.mark (x.magnitudeTokens .decimal) = ⟨0, .decimal⟩ := by
  have written := Numeral.expansion_valuesIn .decimal x.digits
  obtain ⟨v, vs, places⟩ := List.exists_cons_of_ne_nil written.nonempty
  rw [places] at written
  have lt : v < Base.decimal.toNat := written.below v List.mem_cons_self
  rw [magnitudeTokens, places, List.map_cons]
  by_cases zero : valueToken Base.decimal.toNat v = '0'.toUInt8
  · have value := (Numeral.isToken_valueToken lt).1
    rw [zero] at value
    obtain rfl : 0 = v := Option.some.inj value
    rw [(List.cons.inj (written.leading rfl)).2]
    rfl
  · exact mark_of_ne_zero zero _

theorem unsigned_magnitudeTokens (x : Integer) :
    Numeral.Unsigned 0 (x.magnitudeTokens .decimal) x.magnitude.toNat := by
  apply unsigned_of_mark
  rw [mark_magnitudeTokens]
  exact tokens_magnitudeTokens .decimal x

/-! ### Round trips -/

section RoundTrip

variable {x : Integer} (hx : x.Coherent)

include hx

/-- A decimal numeral is read where the base is found from the numeral. -/
theorem ofString_decimal : ofString 0 x.decimal = .ok x :=
  parse_of_splitSign (splitSign_decimal x (by decide)) (unsigned_magnitudeTokens x) hx (toInt_eq hx)

/-- Decimal text of an integer without options is read as that integer where the base is found from the
    text, and it is what is exchanged, which is read back likewise. After its sign the text is a decimal
    numeral of the magnitude, and names no other base. -/
theorem decimal_read_back :
    ofString 0 (x.render (.plain .decimal)) = .ok x ∧
      x.toDatum = .text (x.render (.plain .decimal)) ∧
      ofDatum x.toDatum = .ok x ∧
      ∃ body, splitSign 0 (utf8 (x.render (.plain .decimal))) = (x.isNegative, body) ∧
        Numeral.Tokens .decimal body x.toInt.natAbs ∧ Base.mark body = ⟨0, .decimal⟩ := by
  rw [render_plain]
  refine ⟨ofString_decimal hx, rfl, congrArg accept (ofString_decimal hx), _,
    splitSign_decimal x (by decide), ?_, mark_magnitudeTokens x⟩
  rw [natAbs_toInt hx]
  exact tokens_magnitudeTokens .decimal x

end RoundTrip

/-- A negative integer of two digits, the lower of them zero. -/
theorem decimal_read_back_negative :
    (make .negative (.ofDigits [0, 1])).render (.plain .decimal) = "-18446744073709551616" ∧
      ofString 0 "-18446744073709551616" = .ok (make .negative (.ofDigits [0, 1])) ∧
      ofDatum (.text "-18446744073709551616") = .ok (make .negative (.ofDigits [0, 1])) := by
  have text : (make .negative (.ofDigits [0, 1])).render (.plain .decimal) = "-18446744073709551616" := by
    decide +kernel
  obtain ⟨read, written, exchanged, -⟩ :=
    decimal_read_back (x := make .negative (.ofDigits [0, 1])) (by decide)
  rw [written, text] at exchanged
  exact ⟨text, text ▸ read, exchanged⟩

end Multiprecision.Integer
