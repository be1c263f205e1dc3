import Multiprecision.Proofs.Integer.Native
import Multiprecision.Proofs.Integer.Text

/-! Conversions between integers and native integers are exact. A native value is the number it is made
    an integer of; an integer gives a value of a native type exactly when its number is in the range of
    the type, and gives that number; and the words of two digits that any integer gives are its number
    modulo `2 ^ 128`. -/

namespace Multiprecision

/-! ### Ranges -/

namespace NativeType

/-- The type of the same signedness with 128 bits. -/
def word (t : NativeType) : NativeType := ⟨t.signed, .w128⟩

variable (t : NativeType)

/-- The range of a type is part of the one it is narrowed from, and this of the one of its word. -/
theorem range_wide :
    t.word.least ≤ t.wide.least ∧ t.wide.least ≤ t.least ∧
      t.greatest ≤ t.wide.greatest ∧ t.wide.greatest ≤ t.word.greatest := by
  obtain ⟨signed, width⟩ := t
  cases signed <;> cases width <;> decide

end NativeType

namespace Native

variable {t : NativeType}

/-- A native value is known by its number. -/
theorem ext {p q : Native t} (h : p.toInt = q.toInt) : p = q := by
  cases p
  cases q
  congr

/-- The numbers in the range of a type are those of its values. -/
theorem ofInt?_eq_some_iff {n : Int} {p : Native t} : ofInt? t n = some p ↔ p.toInt = n := by
  rw [ofInt?]
  constructor
  · intro h
    split at h
    · cases h
      rfl
    · cases h
  · rintro rfl
    exact dif_pos ⟨p.least_le, p.le_greatest⟩

end Native

/-! ### Words -/

namespace Wide

/-- The two low digits are the value modulo `2 ^ 128`. -/
theorem ofDigits_eq : ∀ ds : Digits, ofDigits ds = BitVec.ofNat 128 (Digits.value ds)
  | [] => rfl
  | [d] => by rw [ofDigits, Digits.value_cons, Digits.value_nil, Nat.mul_zero, Nat.add_zero]
  | lo :: hi :: ds => by
    apply BitVec.eq_of_toNat_eq
    simp only [ofDigits, Digit.join, BitVec.toNat_ofNat, Digits.value_cons, Digit.base]
    omega

/-- The opposite of a word up to `2 ^ 127` is the opposite number among the signed words. -/
theorem toInt_neg_of_le {w : Wide} (le : w.toNat ≤ twoTo 127) : (-w).toInt = -(w.toNat : Int) := by
  have half : twoTo 127 = 170141183460469231731687303715884105728 := by decide
  rw [half] at le
  rw [BitVec.toInt_eq_toNat_cond, BitVec.toNat_neg]
  split <;> omega

end Wide

namespace Integer

/-- An integer has a magnitude of one word exactly when its magnitude is below `2 ^ 128`. -/
theorem magnitudeWord?_eq_some_iff {x : Integer} {w : Wide} :
    x.magnitudeWord? = some w ↔ w.toNat = x.magnitude.toNat := by
  have short := x.magnitude.length_le_iff (n := 2) (by decide)
  have whole : Digits.weight 2 = 2 ^ 128 := by decide
  have low : (Wide.ofDigits x.digits).toNat = x.magnitude.toNat % 2 ^ 128 :=
    (congrArg BitVec.toNat (Wide.ofDigits_eq x.digits)).trans (BitVec.toNat_ofNat ..)
  rw [whole] at short
  rw [magnitudeWord?]
  split
  · next long =>
    have large : ¬x.magnitude.toNat < 2 ^ 128 := mt short.2 (Nat.not_le.2 long)
    have lt := w.isLt
    constructor
    · rintro ⟨⟩
    · intro same
      exact absurd (same ▸ lt) large
  · next notLong =>
    have lt := short.1 (Nat.le_of_not_lt notLong)
    rw [Nat.mod_eq_of_lt lt] at low
    constructor
    · rintro ⟨⟩
      exact low
    · intro same
      exact congrArg some (BitVec.eq_of_toNat_eq (low.trans same.symm))

theorem exists_word {n : Nat} (lt : n < 2 ^ 128) : ∃ w : Wide, w.toNat = n :=
  ⟨BitVec.ofNat 128 n, (BitVec.toNat_ofNat ..).trans (Nat.mod_eq_of_lt lt)⟩

theorem toSignedWord?_eq (x : Integer) :
    x.toSignedWord? =
      x.magnitudeWord?.bind fun m =>
        if x.isNegative then if m.toNat ≤ twoTo 127 then some (-m).toInt else none
        else if m.toNat < twoTo 127 then some m.toNat else none := by
  rw [toSignedWord?, isNegative]
  cases x.sign <;> rfl

section Checked

variable {x : Integer} (hx : x.Coherent) {n : Int}

include hx

/-- The signed word of an integer is its number, if that is in range: the magnitude of a negative one is
    at most `2 ^ 127`, and that of others is less. -/
theorem toSignedWord?_eq_some_iff :
    x.toSignedWord? = some n ↔ n = x.toInt ∧ -(twoTo 127 : Int) ≤ n ∧ n < twoTo 127 := by
  have number := toInt_eq hx
  have pos := twoTo_pos 127
  have fits : twoTo 127 < 2 ^ 128 := by decide
  simp only [toSignedWord?_eq, Option.bind_eq_some_iff, magnitudeWord?_eq_some_iff]
  cases negative : x.isNegative with
  | true =>
    simp only [negative, if_true] at number ⊢
    constructor
    · rintro ⟨w, word, h⟩
      split at h
      · next le =>
        cases h
        rw [Wide.toInt_neg_of_le le]
        omega
      · cases h
    · rintro ⟨rfl, lower, -⟩
      have le : x.magnitude.toNat ≤ twoTo 127 := by omega
      obtain ⟨w, word⟩ := exists_word (Nat.lt_of_le_of_lt le fits)
      rw [← word] at le
      exact ⟨w, word, by rw [if_pos le, Wide.toInt_neg_of_le le, number, word]⟩
  | false =>
    simp only [negative, Bool.false_eq_true, if_false] at number ⊢
    constructor
    · rintro ⟨w, word, h⟩
      split at h
      · cases h
        omega
      · cases h
    · rintro ⟨rfl, -, upper⟩
      have lt : x.magnitude.toNat < twoTo 127 := by omega
      obtain ⟨w, word⟩ := exists_word (Nat.lt_trans lt fits)
      rw [← word] at lt
      exact ⟨w, word, by rw [if_pos lt, number, word]⟩

/-- The unsigned word of an integer is its number, if that is in range. -/
theorem toUnsignedWord?_eq_some_iff :
    x.toUnsignedWord? = some n ↔ n = x.toInt ∧ 0 ≤ n ∧ n < twoTo 128 := by
  have number := toInt_eq hx
  have nonneg := isNegative_iff hx
  rw [toUnsignedWord?]
  cases negative : x.isNegative with
  | true =>
    have below := nonneg.1 negative
    constructor
    · rintro ⟨⟩
    · rintro ⟨rfl, lower, -⟩
      omega
  | false =>
    simp only [negative, Bool.false_eq_true, if_false, Option.map_eq_some_iff,
      magnitudeWord?_eq_some_iff] at number ⊢
    constructor
    · rintro ⟨w, word, rfl⟩
      have lt := w.isLt
      exact ⟨by omega, by omega, Int.ofNat_lt.2 lt⟩
    · rintro ⟨rfl, -, upper⟩
      have lt : x.magnitude.toNat < twoTo 128 := by omega
      obtain ⟨w, word⟩ := exists_word lt
      exact ⟨w, word, by rw [number, word]⟩

/-- The word that a type is narrowed from is the number, if that is in the range of the word. -/
theorem word_eq_some_iff (t : NativeType) :
    (if t.signed then x.toSignedWord? else x.toUnsignedWord?) = some n ↔
      n = x.toInt ∧ t.word.least ≤ n ∧ n ≤ t.word.greatest := by
  rw [NativeType.least, NativeType.greatest, NativeType.word]
  cases t.signed with
  | true =>
    rw [if_pos rfl, if_pos rfl, if_pos rfl, toSignedWord?_eq_some_iff hx, Int.le_sub_one_iff]
    rfl
  | false =>
    rw [if_neg (by decide), if_neg (by decide), if_neg (by decide), toUnsignedWord?_eq_some_iff hx,
      Int.le_sub_one_iff]
    rfl

/-- An integer gives the value of a native type that is its number, and no other. -/
theorem toNative?_eq_some_iff {t : NativeType} {p : Native t} :
    x.toNative? t = some p ↔ p.toInt = x.toInt := by
  simp only [toNative?, Option.bind_eq_some_iff, Native.ofInt?_eq_some_iff, word_eq_some_iff hx]
  constructor
  · rintro ⟨q, ⟨n, ⟨same, -⟩, narrowed⟩, again⟩
    rw [again, narrowed, same]
  · intro same
    obtain ⟨wordLeast, wideLeast, wideGreatest, wordGreatest⟩ := t.range_wide
    have least := p.least_le
    have greatest := p.le_greatest
    exact ⟨⟨p.toInt, by omega, by omega⟩, ⟨p.toInt, ⟨same, by omega, by omega⟩, rfl⟩, rfl⟩

/-- An integer gives a value of a native type exactly when its number is in the range of the type. -/
theorem isSome_toNative?_iff (t : NativeType) :
    (x.toNative? t).isSome = true ↔ t.least ≤ x.toInt ∧ x.toInt ≤ t.greatest := by
  rw [Option.isSome_iff_exists]
  simp only [toNative?_eq_some_iff hx]
  constructor
  · rintro ⟨p, same⟩
    rw [← same]
    exact ⟨p.least_le, p.le_greatest⟩
  · rintro ⟨least, greatest⟩
    exact ⟨⟨x.toInt, least, greatest⟩, rfl⟩

end Checked

/-! ### Words modulo `2 ^ 128` -/

section Wrapped

variable {x : Integer} (hx : x.Coherent)

include hx

/-- The word of an integer is the one of its number. -/
theorem wrapUnsigned_eq : x.wrapUnsigned = BitVec.ofInt 128 x.toInt := by
  have low : Wide.ofDigits x.digits = BitVec.ofInt 128 x.magnitude.toNat :=
    (Wide.ofDigits_eq x.digits).trans (BitVec.ofInt_natCast ..).symm
  rw [wrapUnsigned, toInt_eq hx, low]
  cases x.isNegative with
  | true => exact BitVec.ofInt_neg.symm
  | false => rfl

/-- The unsigned word is the least remainder of the number that is not negative. -/
theorem toNat_wrapUnsigned : (x.wrapUnsigned.toNat : Int) = x.toInt % (twoTo 128 : Int) := by
  rw [wrapUnsigned_eq hx, BitVec.toNat_ofInt]
  exact Int.toNat_of_nonneg (Int.emod_nonneg _ (by decide))

/-- The signed word is the one number in its range with the remainder of the number. -/
theorem eq_wrapSigned_iff {n : Int} :
    n = x.wrapSigned ↔
      -(twoTo 127 : Int) ≤ n ∧ n < twoTo 127 ∧ n % (twoTo 128 : Int) = x.toInt % (twoTo 128 : Int) := by
  have lower : -(((2 ^ 128 : Nat) : Int) / 2) = -(twoTo 127 : Int) := by decide
  have upper : (((2 ^ 128 : Nat) : Int) + 1) / 2 = (twoTo 127 : Int) := by decide
  rw [wrapSigned, wrapUnsigned_eq hx, BitVec.toInt_ofInt, eq_comm, Int.bmod_eq_iff (by decide), lower,
    upper, Int.emod_eq_emod_iff_emod_sub_eq_zero, ← Int.dvd_iff_emod_eq_zero]
  rfl

end Wrapped

/-- Conversions between integers and native integers are exact at both ends of every range. An integer
    of any length gives a value of a native type exactly when its number is in the range of the type,
    and that value is the number; the integer of a native value has its number; and the words of two
    digits are the number modulo `2 ^ 128`, taken from zero on and from `-2 ^ 127` on. -/
theorem native_conversions_exact :
    (∀ (x : Integer) (t : NativeType), x.Coherent →
      ((x.toNative? t).isSome = true ↔ t.least ≤ x.toInt ∧ x.toInt ≤ t.greatest) ∧
        ∀ p, x.toNative? t = some p → p.toInt = x.toInt) ∧
      (∀ (t : NativeType) (p : Native t), (ofNative p).Coherent ∧ (ofNative p).toInt = p.toInt) ∧
      ∀ x : Integer, x.Coherent →
        (x.wrapUnsigned.toNat : Int) = x.toInt % (twoTo 128 : Int) ∧
          ∀ n : Int, n = x.wrapSigned ↔
            -(twoTo 127 : Int) ≤ n ∧ n < twoTo 127 ∧
              n % (twoTo 128 : Int) = x.toInt % (twoTo 128 : Int) := by
  refine ⟨?_, ?_, ?_⟩
  · intro x t hx
    exact ⟨isSome_toNative?_iff hx t, fun p => (toNative?_eq_some_iff hx).1⟩
  · intro t p
    exact ⟨coherent_ofNative p, toInt_ofNative p⟩
  · intro x hx
    exact ⟨toNat_wrapUnsigned hx, fun n => eq_wrapSigned_iff hx⟩

/-- The least number of the signed words of two digits, and the number below it. -/
theorem native_conversions_exact_least :
    (toNative? ⟨true, .w128⟩ (make .negative (.ofDigits [0, 9223372036854775808]))).isSome = true ∧
      (toNative? ⟨true, .w128⟩ (make .negative (.ofDigits [1, 9223372036854775808]))).isSome = false ∧
      wrapSigned (make .negative (.ofDigits [1, 9223372036854775808, 7])) =
        170141183460469231731687303715884105727 := by
  obtain ⟨checked, -, wrapped⟩ := native_conversions_exact
  refine ⟨?_, ?_, ?_⟩
  · exact (checked _ _ (by decide)).1.2 (by decide)
  · rw [Bool.eq_false_iff]
    exact mt (checked _ _ (by decide)).1.1 (by decide)
  · exact (((wrapped _ (by decide)).2 _).2 (by decide)).symm

end Integer

end Multiprecision
