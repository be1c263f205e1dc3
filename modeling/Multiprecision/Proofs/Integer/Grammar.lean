import Multiprecision.Proofs.Integer.Canonical
import Multiprecision.Proofs.Integer.Text
import Multiprecision.Proofs.Numeral.Grammar

/-! Integers are read from the texts of a grammar and from no others, each as the number that the grammar
    gives it. The texts are ASCII, so that nothing is lost where they come as bytes that must first be
    those of a string. -/

namespace Multiprecision.Integer

/-! ### Numerals without a sign -/

section Unsigned

variable {base n : Nat} {ts : List UInt8} {m : Magnitude}

/-- A numeral that does not begin with `0` names no base. -/
theorem mark_of_ne_zero {t : UInt8} (ne : t ≠ '0'.toUInt8) (ts : List UInt8) :
    Base.mark (t :: ts) = ⟨0, .decimal⟩ := by
  cases ts with
  | nil => rfl
  | cons s ts => rw [Base.mark, if_pos ne]

/-- A `0` before a token of base 8 names this base: the token is none of the letters of the others. -/
theorem mark_of_octal (tokens : Numeral.Tokens .octal ts n) :
    Base.mark ('0'.toUInt8 :: ts) = ⟨1, .octal⟩ := by
  cases ts with
  | nil => exact absurd rfl tokens.ne_nil
  | cons s ts =>
    obtain ⟨v, token⟩ := tokens.isToken s List.mem_cons_self
    have none := token.notMem_letters
    simp only [List.map_cons, List.map_nil, List.mem_cons, List.not_mem_nil, or_false, not_or] at none
    obtain ⟨b, B, x, X⟩ := none
    rw [Base.mark, if_neg (not_not.2 rfl), if_neg (not_or.2 ⟨b, B⟩), if_neg (not_or.2 ⟨x, X⟩)]

/-- Tokens in the base that a numeral names make a numeral. -/
theorem unsigned_of_mark
    (tokens : Numeral.Tokens (Base.mark ts).base (ts.drop (Base.mark ts).length) n) :
    Numeral.Unsigned 0 ts n := by
  match ts with
  | [] => exact absurd rfl tokens.ne_nil
  | [t] =>
    by_cases zero : t = '0'.toUInt8
    · subst zero
      have value : Numeral.IsToken .decimal '0'.toUInt8 0 := by decide
      obtain rfl : 0 = n := Option.some.inj (value.1.symm.trans tokens.of_singleton.1)
      exact .zero
    · exact .decimal zero tokens
  | t :: s :: ts =>
    rw [Base.mark] at tokens
    split at tokens
    · next ne => exact .decimal ne tokens
    · next zero =>
      obtain rfl := not_not.1 zero
      split at tokens
      · next letter => exact .binary letter tokens
      · split at tokens
        · next letter => exact .hexadecimal letter tokens
        · exact .octal tokens

/-- A numeral without a sign is read as the number it denotes. -/
theorem parseUnsigned_of_unsigned (h : Numeral.Unsigned base ts n) :
    parseUnsigned base ts = .ok (Magnitude.ofNat n) := by
  have read : ∀ {b : Base} {us : List UInt8} {k : Nat}, Numeral.Tokens b us k →
      Numeral.readIn b us = .ok (Magnitude.ofNat k) := by
    intro b us k tokens
    rwa [Numeral.readIn_eq_ok_iff, Magnitude.toNat_ofNat]
  cases h with
  | inBase tokens => exact (parseUnsigned_eq _ _).trans (read tokens)
  | binary letter tokens => rcases letter with rfl | rfl <;> exact read tokens
  | hexadecimal letter tokens => rcases letter with rfl | rfl <;> exact read tokens
  | octal tokens =>
    rw [parseUnsigned, if_pos rfl, mark_of_octal tokens]
    exact read tokens
  | zero => exact read (.single (by decide))
  | decimal ne tokens =>
    rw [parseUnsigned, if_pos rfl, mark_of_ne_zero ne]
    exact read tokens

/-- What is read without a sign is a numeral, of the number it is read as. -/
theorem parseUnsigned_eq_ok_iff : parseUnsigned base ts = .ok m ↔ Numeral.Unsigned base ts m.toNat := by
  constructor
  · intro h
    by_cases named : base = 0
    · subst named
      exact unsigned_of_mark (Numeral.readIn_eq_ok_iff.1 h)
    · rw [parseUnsigned, if_neg named, Numeral.read, Base.ofNat] at h
      split at h
      · next supported =>
        exact .inBase (b := ⟨base, supported.1, supported.2⟩) (Numeral.readIn_eq_ok_iff.1 h)
      · cases h
  · intro h
    rw [parseUnsigned_of_unsigned h, Magnitude.ofNat_toNat]

end Unsigned

/-! ### Signs -/

section Signed

variable {base n : Nat} {ts us : List UInt8} {negative : Bool} {x : Integer}

theorem splitSign_minus (signed : base ≤ Base.greatestSigned) (ts : List UInt8) :
    splitSign base ('-'.toUInt8 :: ts) = (true, ts) := if_pos ⟨signed, rfl⟩

theorem splitSign_plus (signed : base ≤ Base.greatestSigned) (ts : List UInt8) :
    splitSign base ('+'.toUInt8 :: ts) = (false, ts) := by
  have noMinus : ¬(base ≤ Base.greatestSigned ∧ '+'.toUInt8 = '-'.toUInt8) := by
    rintro ⟨-, same⟩
    exact absurd same (by decide)
  rw [splitSign, if_neg noMinus, if_pos ⟨signed, rfl⟩]

/-- A numeral is one with the sign that is taken off its front. -/
theorem signed_of_splitSign (split : splitSign base ts = (negative, us))
    (body : Numeral.Unsigned base us n) :
    Numeral.Signed base ts (if negative then -(n : Int) else n) := by
  cases ts with
  | nil =>
    cases split
    exact .bare body
  | cons t ts =>
    rw [splitSign] at split
    split at split
    · next minus =>
      obtain ⟨signed, rfl⟩ := minus
      cases split
      exact .minus signed body
    · split at split
      · next plus =>
        obtain ⟨signed, rfl⟩ := plus
        cases split
        exact .plus signed body
      · cases split
        exact .bare body

/-- What follows the sign is read as the number it denotes, and the sign is set before it. -/
theorem parse_of_splitSign (split : splitSign base ts = (negative, us))
    (body : Numeral.Unsigned base us n) (hx : x.Coherent)
    (value : x.toInt = if negative then -(n : Int) else n) : parse base ts = .ok x := by
  rw [parse, split]
  refine Except.map_eq_ok_iff.2 ⟨_, parseUnsigned_of_unsigned body, (coherent_make ..).ext hx ?_⟩
  rw [toInt_ofNegative, Magnitude.toNat_ofNat, value]

/-- The numerals of a base are what is read in it, each as the coherent integer it denotes. -/
theorem parse_eq_ok_iff : parse base ts = .ok x ↔ x.Coherent ∧ Numeral.Signed base ts x.toInt := by
  constructor
  · intro h
    rw [parse] at h
    split at h
    next negative us split =>
    obtain ⟨m, read, rfl⟩ := Except.map_eq_ok_iff.1 h
    rw [toInt_ofNegative]
    exact ⟨coherent_make .., signed_of_splitSign split (parseUnsigned_eq_ok_iff.1 read)⟩
  · rintro ⟨hx, h⟩
    generalize value : x.toInt = z at h
    cases h with
    | bare body => exact parse_of_splitSign (splitSign_of_ne_sign body.ne_sign) body hx value
    | plus signed body => exact parse_of_splitSign (splitSign_plus signed _) body hx value
    | minus signed body => exact parse_of_splitSign (splitSign_minus signed _) body hx value

end Signed

/-! ### Bytes of a string -/

section Bytes

variable {base : Nat} {bytes : List UInt8} {s : String} {x : Integer}

/-- The string that bytes are decoded to has these bytes. -/
theorem fromUTF8?_eq_some_iff : String.fromUTF8? ⟨bytes.toArray⟩ = some s ↔ utf8 s = bytes := by
  rw [String.fromUTF8?]
  constructor
  · intro h
    split at h
    · cases h
      rfl
    · cases h
  · rintro rfl
    exact dif_pos s.isValidUTF8

theorem ofBytes?_eq_some_iff :
    ofBytes? base bytes = some x ↔ ∃ s, utf8 s = bytes ∧ ofString base s = .ok x := by
  simp only [ofBytes?, Option.bind_eq_some_iff, fromUTF8?_eq_some_iff, Except.toOption_eq_some_iff]

/-- Decoding refuses no numeral: its bytes are ASCII. -/
theorem ofBytes?_eq_some_iff_parse : ofBytes? base bytes = some x ↔ parse base bytes = .ok x := by
  rw [ofBytes?_eq_some_iff]
  constructor
  · rintro ⟨s, rfl, read⟩
    exact read
  · intro read
    have decoded := utf8_ofAscii (parse_eq_ok_iff.1 read).2.ascii
    refine ⟨ofAscii bytes, decoded, ?_⟩
    rwa [ofString, decoded]

end Bytes

/-! ### What is read -/

/-- The integers that are read from strings and from bytes are the numbers of the grammar of numerals. A
    text is read exactly when it is a numeral of the base, the integer that is read is in canonical form
    and is the number of the numeral, and bytes are read exactly when they are a numeral themselves. -/
theorem read_iff_numeral (base : Nat) :
    (∀ s : String, (∃ x, ofString base s = .ok x) ↔ ∃ z, Numeral.Signed base (utf8 s) z) ∧
      (∀ (s : String) (x : Integer),
        ofString base s = .ok x ↔ x.Canonical ∧ Numeral.Signed base (utf8 s) x.toInt) ∧
      ∀ (bytes : List UInt8) (x : Integer),
        ofBytes? base bytes = some x ↔ x.Canonical ∧ Numeral.Signed base bytes x.toInt := by
  refine ⟨?_, ?_, ?_⟩
  · intro s
    constructor
    · rintro ⟨x, read⟩
      exact ⟨x.toInt, (parse_eq_ok_iff.1 read).2⟩
    · rintro ⟨z, numeral⟩
      exact ⟨ofInt z, parse_eq_ok_iff.2 ⟨coherent_ofInt z, by rwa [toInt_ofInt]⟩⟩
  · intro s x
    rw [← coherent_iff_canonical]
    exact parse_eq_ok_iff
  · intro bytes x
    rw [← coherent_iff_canonical, ofBytes?_eq_some_iff_parse]
    exact parse_eq_ok_iff

example : ofString 0 "-0" = .ok zero := by decide +kernel

end Multiprecision.Integer
