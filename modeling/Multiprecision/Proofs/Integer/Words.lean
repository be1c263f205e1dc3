import Multiprecision.Integer.Words
import Multiprecision.Proofs.Digits.Shift
import Multiprecision.Proofs.Integer.Arithmetic

/-! Integers and integers of 32-bit words are the same numbers. What is assumed of a kind of integers of
    words is how they are made and what they give back; from this the exchange both ways keeps the
    number, and each way undoes the other. Integers of words in a list are one such kind. -/

namespace Multiprecision

namespace WordInteger

/-! ### Words and digits -/

/-- The two words of a digit. -/
theorem toNat_halves (d : Digit) :
    d.toUInt32.toNat + 4294967296 * (d >>> 32).toUInt32.toNat = d.toNat := by
  have lt := d.toNat_lt
  have high : (d >>> 32).toNat = d.toNat / 4294967296 := Digit.toNat_shiftRight (n := 32) (by decide) d
  rw [UInt64.toNat_toUInt32, UInt64.toNat_toUInt32, high]
  omega

/-- The digit of two words. -/
theorem toNat_pair (lo hi : UInt32) :
    ((hi.toUInt64 <<< 32) ||| lo.toUInt64).toNat = lo.toNat + 4294967296 * hi.toNat := by
  have low := lo.toNat_lt
  have high := hi.toNat_lt
  have shifted : (hi.toUInt64 <<< 32).toNat = twoTo 32 * hi.toNat := by
    have fits : hi.toNat % twoTo (Digit.bits - 32) = hi.toNat := Nat.mod_eq_of_lt high
    rw [← fits]
    exact Digit.toNat_shiftLeft (n := 32) (by decide) hi.toUInt64
  have below : lo.toUInt64.toNat < twoTo 32 := by rwa [UInt32.toNat_toUInt64]
  rw [Digit.toNat_lor (n := 32) shifted below, shifted, UInt32.toNat_toUInt64, Nat.add_comm]
  rfl

/-- Digits split into words denote the same number. -/
theorem value_splitPairs (ds : Digits) : value (splitPairs ds) = Digits.value ds := by
  induction ds with
  | nil => rfl
  | cons d ds ih =>
    have halves := toNat_halves d
    simp only [splitPairs, value, Digits.value_cons, ih, Digit.base]
    omega

/-- Words joined to digits denote the same number, also where one word is left over. -/
theorem value_joinPairs : ∀ ws : List UInt32, Digits.value (joinPairs ws) = value ws
  | [] => rfl
  | [lo] => by simp [joinPairs, value]
  | lo :: hi :: ws => by
    have pair := toNat_pair lo hi
    simp only [joinPairs, value, Digits.value_cons, value_joinPairs ws, pair, Digit.base]
    omega

/-! ### Zeros at the top -/

theorem value_trimWords (ws : List UInt32) : value (trimWords ws) = value ws := by
  induction ws with
  | nil => rfl
  | cons w ws ih =>
    rw [trimWords]
    split
    · next none =>
      have zero : value ws = 0 := ih.symm.trans (congrArg value none)
      split
      · next first =>
        rw [value, value, zero, first]
        rfl
      · rw [value, value, value, zero]
    · next some => rw [value, ← some, ih, value]

theorem trimWords_eq_nil_iff (ws : List UInt32) : trimWords ws = [] ↔ value ws = 0 := by
  constructor
  · intro none
    rw [← value_trimWords, none]
    rfl
  · intro zero
    induction ws with
    | nil => rfl
    | cons w ws ih =>
      rw [value] at zero
      have first : w = 0 := UInt32.toNat_inj.1 (by simp; omega)
      rw [trimWords, ih (by omega), first]
      rfl

/-- Words of one number are the same without the zeros at the top. -/
theorem trimWords_eq_of_value_eq : ∀ {vs ws : List UInt32}, value vs = value ws →
    trimWords vs = trimWords ws
  | [], ws, same => ((trimWords_eq_nil_iff ws).2 same.symm).symm
  | v :: vs, [], same => (trimWords_eq_nil_iff (v :: vs)).2 same
  | v :: vs, w :: ws, same => by
    have hv := v.toNat_lt
    have hw := w.toNat_lt
    rw [value, value] at same
    have first : v = w := UInt32.toNat_inj.1 (by omega)
    have rest : value vs = value ws := by omega
    rw [trimWords, trimWords, first, trimWords_eq_of_value_eq rest]

/-- Trimming loses nothing that it would drop again. -/
theorem trimWords_trimWords (ws : List UInt32) : trimWords (trimWords ws) = trimWords ws :=
  trimWords_eq_of_value_eq (value_trimWords ws)

theorem make_eq_zero {s : Sign} {ws : List UInt32} (zero : s = .zero ∨ value ws = 0) :
    make s ws = ⟨.zero, []⟩ := by
  rw [← trimWords_eq_nil_iff] at zero
  rcases zero with rfl | none
  · rfl
  · cases s <;> simp only [make, none]

theorem make_eq_parts {s : Sign} {ws : List UInt32} (sign : s ≠ .zero) (nonzero : value ws ≠ 0) :
    make s ws = ⟨s, trimWords ws⟩ := by
  obtain ⟨w, vs, words⟩ := List.exists_cons_of_ne_nil (mt (trimWords_eq_nil_iff ws).1 nonzero)
  cases s with
  | negative => simp only [make, words]
  | zero => exact absurd rfl sign
  | positive => simp only [make, words]

end WordInteger

/-! ### What integers of words do -/

namespace WordNumbers

variable {N Z : Type}

/-- The rules that integers of words keep, where `value` is the number of a natural one. -/
structure Lawful (W : WordNumbers N Z) (value : N → Nat) : Prop where
  /-- Words are read from the lowest up. -/
  value_ofWords (ws : List UInt32) : value (W.ofWords ws) = WordInteger.value ws
  /-- Zeros at the top are dropped, so that words of one number make one natural number. -/
  ofWords_ext {vs ws : List UInt32} :
    WordInteger.value vs = WordInteger.value ws → W.ofWords vs = W.ofWords ws
  value_toDigits (n : N) : Digits.value (W.toDigits n) = value n
  /-- A zero magnitude makes the sign zero. -/
  sign_ofParts (s : Sign) (ws : List UInt32) :
    W.sign (W.ofParts s (W.ofWords ws)) = if WordInteger.value ws = 0 then .zero else s
  /-- The sign zero makes the magnitude zero. -/
  magnitude_ofParts (s : Sign) (ws : List UInt32) :
    W.magnitude (W.ofParts s (W.ofWords ws)) = if s = .zero then W.ofWords [] else W.ofWords ws
  /-- An integer is its sign and its magnitude. -/
  ext {y z : Z} : W.sign y = W.sign z → W.magnitude y = W.magnitude z → y = z

/-- The integers that are made of a sign and words. -/
def Made (W : WordNumbers N Z) (z : Z) : Prop := ∃ s ws, W.ofParts s (W.ofWords ws) = z

/-- The number of an integer of words. -/
def toInt (W : WordNumbers N Z) (value : N → Nat) (z : Z) : Int :=
  (W.sign z).toInt * value (W.magnitude z)

namespace Lawful

variable {W : WordNumbers N Z} {value : N → Nat} (rules : W.Lawful value)

include rules

/-- The sign of an integer that was made is zero exactly when its magnitude is. -/
theorem sign_eq_zero_iff {z : Z} (made : W.Made z) : W.sign z = .zero ↔ value (W.magnitude z) = 0 := by
  obtain ⟨s, ws, rfl⟩ := made
  rw [rules.sign_ofParts, rules.magnitude_ofParts]
  by_cases zero : s = .zero
  · rw [if_pos zero, rules.value_ofWords, zero, ite_self]
    exact iff_of_true rfl rfl
  · rw [if_neg zero, rules.value_ofWords, ite_eq_left_iff, not_imp_comm]
    exact forall_prop_of_true zero

/-- The magnitude of an integer that was made is made of words. -/
theorem exists_magnitude {z : Z} (made : W.Made z) : ∃ ws, W.magnitude z = W.ofWords ws := by
  obtain ⟨s, ws, rfl⟩ := made
  rw [rules.magnitude_ofParts]
  split
  · exact ⟨[], rfl⟩
  · exact ⟨ws, rfl⟩

end Lawful

end WordNumbers

namespace Integer

/-- A sign and a magnitude that agree are the integer that is made of them. -/
theorem make_of_agree {s : Sign} {m : Magnitude} (agree : s = .zero ↔ m.toNat = 0) : make s m = ⟨s, m⟩ := by
  rw [← Magnitude.isZero_iff] at agree
  rw [make_eq]
  split
  · next zero => rw [agree.2 zero]
  · next nonzero => rw [if_neg (mt agree.1 nonzero)]

section Exchange

variable {N Z : Type} {W : WordNumbers N Z} {value : N → Nat} (rules : W.Lawful value)

include rules

/-- What is made of an integer of words has its sign and its magnitude. -/
theorem ofNumber_eq {z : Z} (made : W.Made z) :
    ofNumber W z = ⟨W.sign z, Magnitude.ofDigits (W.toDigits (W.magnitude z))⟩ := by
  apply make_of_agree
  rw [Magnitude.toNat_ofDigits, rules.value_toDigits]
  exact rules.sign_eq_zero_iff made

theorem toInt_ofNumber {z : Z} (made : W.Made z) : (ofNumber W z).toInt = W.toInt value z := by
  rw [ofNumber_eq rules made, toInt, Magnitude.toNat_ofDigits, rules.value_toDigits]
  rfl

theorem toInt_ofNatural (n : N) : (ofNatural W n).toInt = value n := by
  have number := toInt_ofNegative false (Magnitude.ofDigits (W.toDigits n))
  rwa [if_neg (by decide), Magnitude.toNat_ofDigits, rules.value_toDigits] at number

section Coherent

variable {x : Integer} (hx : x.Coherent)

include hx

theorem sign_toNumber : W.sign (toNumber W x) = x.sign := by
  rw [toNumber, rules.sign_ofParts, WordInteger.value_splitPairs]
  split
  · next zero => exact (((coherent_iff x).1 hx).2 zero).symm
  · rfl

/-- The magnitude is the words of all digits. -/
theorem magnitude_toNumber : W.magnitude (toNumber W x) = W.ofWords (WordInteger.splitPairs x.digits) := by
  rw [toNumber, rules.magnitude_ofParts]
  split
  · next zero =>
    apply rules.ofWords_ext
    rw [WordInteger.value_splitPairs]
    exact (((coherent_iff x).1 hx).1 zero).symm
  · rfl

theorem toInt_toNumber : W.toInt value (toNumber W x) = x.toInt := by
  rw [WordNumbers.toInt, sign_toNumber rules hx, magnitude_toNumber rules hx, rules.value_ofWords,
    WordInteger.value_splitPairs]
  rfl

/-- An integer is what is made of its words. -/
theorem ofNumber_toNumber : ofNumber W (toNumber W x) = x := by
  have made : W.Made (toNumber W x) := ⟨x.sign, WordInteger.splitPairs x.digits, rfl⟩
  refine (coherent_make ..).ext hx ?_
  exact (toInt_ofNumber rules made).trans (toInt_toNumber rules hx)

end Coherent

/-- An integer of words is what is made of its digits. -/
theorem toNumber_ofNumber {z : Z} (made : W.Made z) : toNumber W (ofNumber W z) = z := by
  have coherent : (ofNumber W z).Coherent := coherent_make ..
  apply rules.ext
  · rw [sign_toNumber rules coherent, ofNumber_eq rules made]
  · obtain ⟨ws, words⟩ := rules.exists_magnitude made
    rw [magnitude_toNumber rules coherent, ofNumber_eq rules made, words]
    apply rules.ofWords_ext
    calc WordInteger.value (WordInteger.splitPairs (Magnitude.ofDigits (W.toDigits (W.ofWords ws))).digits)
        = (Magnitude.ofDigits (W.toDigits (W.ofWords ws))).toNat := WordInteger.value_splitPairs _
      _ = value (W.ofWords ws) := by rw [Magnitude.toNat_ofDigits, rules.value_toDigits]
      _ = WordInteger.value ws := rules.value_ofWords ws

end Exchange

/-! ### Words in a list -/

theorem numbers_ofParts (s : Sign) (ws : List UInt32) :
    WordInteger.numbers.ofParts s (WordInteger.numbers.ofWords ws) =
      if s = .zero ∨ WordInteger.value ws = 0 then ⟨.zero, []⟩ else ⟨s, trimWords ws⟩ := by
  change WordInteger.make s (trimWords ws) = _
  have value := WordInteger.value_trimWords ws
  split
  · next zero => exact WordInteger.make_eq_zero (value ▸ zero)
  · next nonzero =>
    rw [not_or] at nonzero
    rw [WordInteger.make_eq_parts nonzero.1 (value ▸ nonzero.2), WordInteger.trimWords_trimWords]

/-- Integers of words in a list keep the rules. -/
theorem numbers_lawful : WordInteger.numbers.Lawful WordInteger.value where
  value_ofWords := WordInteger.value_trimWords
  ofWords_ext := WordInteger.trimWords_eq_of_value_eq
  value_toDigits := WordInteger.value_joinPairs
  sign_ofParts s ws := by
    rw [numbers_ofParts]
    by_cases zero : WordInteger.value ws = 0
    · rw [if_pos (.inr zero), if_pos zero]
      rfl
    · rw [if_neg zero]
      split
      · next h => exact (h.resolve_right zero).symm
      · rfl
  magnitude_ofParts s ws := by
    rw [numbers_ofParts]
    by_cases zero : s = .zero
    · rw [if_pos (.inl zero), if_pos zero]
      rfl
    · rw [if_neg zero]
      split
      · next h => exact ((WordInteger.trimWords_eq_nil_iff ws).2 (h.resolve_left zero)).symm
      · rfl
  ext {y z} sign magnitude := by
    cases y
    cases z
    exact congrArg₂ WordInteger.mk sign magnitude

/-- Integers and integers of 32-bit words stand for each other. Of every kind of integers of words that
    keeps the rules: what an integer is made into has its number and makes the integer again; what is
    made of an integer of words is coherent, has its number and makes it again; and a natural number of
    words makes the integer that is not negative of that number. -/
theorem words_stand_for_integers {N Z : Type} {W : WordNumbers N Z} {value : N → Nat}
    (rules : W.Lawful value) :
    (∀ x : Integer, x.Coherent →
      W.Made (toNumber W x) ∧ W.toInt value (toNumber W x) = x.toInt ∧
        ofNumber W (toNumber W x) = x) ∧
      (∀ z : Z, W.Made z →
        (ofNumber W z).Coherent ∧ (ofNumber W z).toInt = W.toInt value z ∧
          toNumber W (ofNumber W z) = z) ∧
      ∀ n : N, (ofNatural W n).Coherent ∧ (ofNatural W n).toInt = value n := by
  refine ⟨?_, ?_, ?_⟩
  · intro x hx
    exact ⟨⟨_, _, rfl⟩, toInt_toNumber rules hx, ofNumber_toNumber rules hx⟩
  · intro z made
    exact ⟨coherent_make .., toInt_ofNumber rules made, toNumber_ofNumber rules made⟩
  · intro n
    exact ⟨coherent_make .., toInt_ofNatural rules n⟩

/-- A negative integer of three words in a list, one of them zero, and an integer of two digits that
    need three words. -/
theorem words_stand_for_integers_odd :
    toWordInteger (ofWordInteger ⟨.negative, [7, 0, 3]⟩) = ⟨.negative, [7, 0, 3]⟩ ∧
      (ofWordInteger ⟨.negative, [7, 0, 3]⟩).toInt = -55340232221128654855 ∧
      toWordInteger (make .positive (.ofDigits [18446744073709551615, 1])) =
        ⟨.positive, [4294967295, 4294967295, 1]⟩ ∧
      ofWordInteger ⟨.positive, [4294967295, 4294967295, 1]⟩ =
        make .positive (.ofDigits [18446744073709551615, 1]) := by
  obtain ⟨integers, words, -⟩ := words_stand_for_integers numbers_lawful
  have made : WordInteger.numbers.Made ⟨.negative, [7, 0, 3]⟩ := ⟨.negative, [7, 0, 3], by decide⟩
  obtain ⟨-, number, back⟩ := words _ made
  have split : toWordInteger (make .positive (.ofDigits [18446744073709551615, 1])) =
      ⟨.positive, [4294967295, 4294967295, 1]⟩ := by decide
  have joined := (integers (make .positive (.ofDigits [18446744073709551615, 1])) (by decide)).2.2
  exact ⟨back, number.trans (by decide), split, split ▸ joined⟩

end Integer

end Multiprecision
