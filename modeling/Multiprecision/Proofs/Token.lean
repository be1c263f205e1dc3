import Multiprecision.Base
import Multiprecision.Numeral.Reading

/-! Tokens and values are inverse to each other, but that bases up to 36 read letters of either case and
    write small ones. No token is a sign where a numeral may carry one. -/

namespace Multiprecision

namespace Alphabet

/-- A token as it is written: small letters where case does not matter. -/
def written : Alphabet → UInt8 → UInt8
  | .caseless, t => if 'A'.toUInt8 ≤ t ∧ t ≤ 'Z'.toUInt8 then t + 32 else t
  | .mixed, t => t

theorem value_token (a : Alphabet) : ∀ v < a.size, a.value (a.token v) = some v := by
  cases a <;> decide +kernel

theorem forall_byte {p : UInt8 → Prop} (h : ∀ n < 256, p n.toUInt8) (t : UInt8) : p t := by
  have := h t.toNat t.toNat_lt
  rwa [Nat.toUInt8_eq, UInt8.ofNat_toNat] at this

theorem token_of_value (a : Alphabet) (t : UInt8) : ∀ v ∈ a.value t, a.token v = a.written t := by
  revert t
  refine forall_byte ?_
  cases a <;> decide +kernel

/-- A minus has no value. -/
theorem value_minus (a : Alphabet) : a.value '-'.toUInt8 = none := by cases a <;> decide

/-- A plus has no value below 62. -/
theorem le_of_value_plus (a : Alphabet) : ∀ v ∈ a.value '+'.toUInt8, 62 ≤ v := by cases a <;> decide

/-- Every token is an ASCII character. -/
theorem ascii_of_value (a : Alphabet) (t : UInt8) : ∀ v ∈ a.value t, t < 128 := by
  revert t
  refine forall_byte ?_
  cases a <;> decide +kernel

end Alphabet

namespace Numeral

variable {b : Base} {t : UInt8} {v : Nat}

theorem lt_size (lt : v < b.toNat) : v < (Alphabet.ofBase b.toNat).size := by
  have := b.le_greatest
  rw [Alphabet.ofBase]
  split
  · next small => exact Nat.lt_of_lt_of_le lt small
  · exact Nat.lt_of_lt_of_le lt this

/-- A token of a base, and its value. -/
def IsToken (b : Base) (t : UInt8) (v : Nat) : Prop := tokenValue b.toNat t = some v ∧ v < b.toNat

instance (b : Base) (t : UInt8) (v : Nat) : Decidable (IsToken b t v) :=
  inferInstanceAs (Decidable (_ ∧ _))

theorem readToken_eq_ok_iff : readToken b t = .ok v ↔ IsToken b t v := by
  rw [readToken, IsToken]
  cases tokenValue b.toNat t with
  | none => simp
  | some w =>
    dsimp only
    split
    · next lt =>
      constructor
      · rintro ⟨⟩
        exact ⟨rfl, lt⟩
      · rintro ⟨⟨⟩, -⟩
        rfl
    · next large =>
      constructor
      · rintro ⟨⟩
      · rintro ⟨⟨⟩, lt⟩
        exact absurd lt large

theorem IsToken.ascii (h : IsToken b t v) : t < 128 := Alphabet.ascii_of_value _ t v h.1

/-- Where a numeral may carry a sign, no token is one. -/
theorem IsToken.ne_sign (h : IsToken b t v) (signed : b.toNat ≤ Base.greatestSigned) :
    t ≠ '-'.toUInt8 ∧ t ≠ '+'.toUInt8 := by
  obtain ⟨value, lt⟩ := h
  constructor
  · rintro rfl
    rw [tokenValue, Alphabet.value_minus] at value
    cases value
  · rintro rfl
    have large := Alphabet.le_of_value_plus _ v value
    rw [Base.greatestSigned] at signed
    omega

/-- What a value is written as is a token of that value. -/
theorem isToken_valueToken (lt : v < b.toNat) : IsToken b (valueToken b.toNat v) v :=
  ⟨Alphabet.value_token _ v (lt_size lt), lt⟩

/-- A token that is written is read as its value. -/
theorem readToken_valueToken (lt : v < b.toNat) : readToken b (valueToken b.toNat v) = .ok v :=
  readToken_eq_ok_iff.2 (isToken_valueToken lt)

/-- A token that is read is written as itself, but for letters where case does not matter. -/
theorem valueToken_of_readToken (h : readToken b t = .ok v) :
    valueToken b.toNat v = (Alphabet.ofBase b.toNat).written t :=
  Alphabet.token_of_value _ t v (readToken_eq_ok_iff.1 h).1

theorem valueToken_lt (lt : v < b.toNat) : valueToken b.toNat v < 128 := (isToken_valueToken lt).ascii

theorem valueToken_ne_sign (signed : b.toNat ≤ Base.greatestSigned) (lt : v < b.toNat) :
    valueToken b.toNat v ≠ '-'.toUInt8 ∧ valueToken b.toNat v ≠ '+'.toUInt8 :=
  (isToken_valueToken lt).ne_sign signed

end Numeral

end Multiprecision
