import Multiprecision.Integer.Text
import Multiprecision.Proofs.Integer.Arithmetic
import Multiprecision.Proofs.Numeral.Expansion
import Multiprecision.Proofs.Token

/-! Text round trips. What is written of an integer is read as that integer, unless a minus stands in
    front of it in a base where no sign is read; and what is written of an integer that was read is the
    canonical spelling of the text it was read from. -/

namespace Multiprecision.Integer

/-! ### Canonical spelling -/

/-- A list without the zeros at the front; the last element stays. -/
def dropZeros {α : Type} (zero : α → Bool) : List α → List α
  | [] => []
  | [a] => [a]
  | a :: c :: l => if zero a then dropZeros zero (c :: l) else a :: c :: l

/-- The canonical spelling of a numeral of the integer `x`: a minus for a numeral with a minus, unless
    it is zero, then the tokens from the first one on that does not stand for zero, or one for zero,
    letters in small ones where case does not matter. -/
def spelling (b : Base) (bytes : List UInt8) (x : Integer) : List UInt8 :=
  let (negative, unsigned) := splitSign b.toNat bytes
  let body := (dropZeros (fun t => tokenValue b.toNat t == some 0) unsigned).map
    (Alphabet.ofBase b.toNat).written
  if negative ∧ x.toInt ≠ 0 then '-'.toUInt8 :: body else body

/-! ### Bytes of a string -/

theorem utf8EncodeChar_ascii (t : UInt8) :
    t < 128 → String.utf8EncodeChar (Char.ofNat t.toNat) = [t] := by
  revert t
  exact Alphabet.forall_byte (by decide +kernel)

/-- Bytes below 128 make a string that has these bytes. -/
theorem utf8_ofAscii {bytes : List UInt8} (ascii : ∀ t ∈ bytes, t < 128) :
    utf8 (ofAscii bytes) = bytes := by
  rw [utf8, ofAscii, String.toByteArray_ofList, List.utf8Encode, List.data_toByteArray]
  induction bytes with
  | nil => rfl
  | cons t ts ih =>
    rw [List.forall_mem_cons] at ascii
    rw [List.map_cons, List.flatMap_cons, utf8EncodeChar_ascii t ascii.1]
    exact congrArg (t :: ·) (ih ascii.2)

/-! ### Written integers are read -/

variable (b : Base)

/-- The tokens of the magnitude. -/
theorem tokens_eq (x : Integer) :
    x.tokens b.toNat =
      .ok (if x.isNegative then '-'.toUInt8 :: x.magnitudeTokens b else x.magnitudeTokens b) := by
  rw [tokens, Numeral.write, Numeral.values, b.ofNat_toNat]
  rfl

theorem readTokens_map_valueToken {vs : List Nat} (lt : ∀ v ∈ vs, v < b.toNat) :
    Numeral.readTokens b (vs.map (valueToken b.toNat)) = .ok vs := by
  rw [Numeral.readTokens_eq_ok_iff]
  induction vs with
  | nil => exact .nil
  | cons v vs ih =>
    rw [List.forall_mem_cons] at lt
    exact .cons (Numeral.readToken_valueToken lt.1) (ih lt.2)

theorem parseUnsigned_eq (ts : List UInt8) : parseUnsigned b.toNat ts = Numeral.readIn b ts := by
  rw [parseUnsigned, if_neg (Nat.ne_of_gt b.pos), Numeral.read, b.ofNat_toNat]
  rfl

theorem parse_eq {ts us : List UInt8} {negative : Bool} (h : splitSign b.toNat ts = (negative, us)) :
    parse b.toNat ts = (Numeral.readIn b us).map (make (Sign.ofNegative negative)) := by
  rw [parse, h]
  exact congrArg (Except.map _) (parseUnsigned_eq b us)

/-- The tokens of a magnitude are read as it. -/
theorem readIn_magnitudeTokens (x : Integer) : Numeral.readIn b (x.magnitudeTokens b) = .ok x.magnitude := by
  have written := Numeral.expansion_valuesIn b x.digits
  have ne : (x.magnitudeTokens b).isEmpty = false := by
    rw [magnitudeTokens, List.isEmpty_eq_false_iff]
    exact mt List.map_eq_nil_iff.1 written.nonempty
  rw [Numeral.readIn_eq, ne, magnitudeTokens, readTokens_map_valueToken b written.below]
  refine congrArg Except.ok ?_
  dsimp only
  rw [written.denotes]
  exact x.magnitude.ofNat_toNat

/-- Tokens that do not begin with a sign are all of the numeral. -/
theorem splitSign_of_ne_sign {base : Nat} {ts : List UInt8}
    (unsigned : base ≤ Base.greatestSigned → ∀ t ∈ ts, t ≠ '-'.toUInt8 ∧ t ≠ '+'.toUInt8) :
    splitSign base ts = (false, ts) := by
  cases ts with
  | nil => rfl
  | cons t ts =>
    rw [splitSign, if_neg, if_neg]
    · rintro ⟨signed, plus⟩
      exact (unsigned signed t List.mem_cons_self).2 plus
    · rintro ⟨signed, minus⟩
      exact (unsigned signed t List.mem_cons_self).1 minus

theorem ne_sign_of_mem_magnitudeTokens {x : Integer} (signed : b.toNat ≤ Base.greatestSigned) :
    ∀ t ∈ x.magnitudeTokens b, t ≠ '-'.toUInt8 ∧ t ≠ '+'.toUInt8 := by
  intro t mem
  obtain ⟨v, hv, rfl⟩ := List.mem_map.1 mem
  exact Numeral.valueToken_ne_sign signed ((Numeral.expansion_valuesIn b x.digits).below v hv)

theorem ascii_magnitudeTokens (x : Integer) : ∀ t ∈ x.magnitudeTokens b, t < 128 := by
  intro t mem
  obtain ⟨v, hv, rfl⟩ := List.mem_map.1 mem
  exact Numeral.valueToken_lt ((Numeral.expansion_valuesIn b x.digits).below v hv)

/-- A coherent integer is made of its sign and its magnitude, where zero may have any sign. -/
theorem make_magnitude {x : Integer} (hx : x.Coherent) {s : Sign} (nonzero : s ≠ .zero)
    (h : x.sign = .zero ∨ x.sign = s) : make s x.magnitude = x := by
  refine (coherent_make ..).ext hx ?_
  rw [toInt_make, toInt]
  · rcases h with h | h
    · rw [((coherent_iff x).1 hx).1 h, Int.natCast_zero, Int.mul_zero, Int.mul_zero]
    · rw [h]
  · intro z
    exact absurd z nonzero

theorem isNegative_iff {x : Integer} (hx : x.Coherent) : x.isNegative = true ↔ x.toInt < 0 := by
  rw [isNegative, beq_iff_eq, ← Int.sign_eq_neg_one_iff_neg, sign_toInt hx]
  cases x.sign <;> decide

/-- A coherent integer is its magnitude, after a minus where it is negative. -/
theorem toInt_eq {x : Integer} (hx : x.Coherent) :
    x.toInt = if x.isNegative then -(x.magnitude.toNat : Int) else x.magnitude.toNat := by
  have magnitude := natAbs_toInt hx
  have sign := isNegative_iff hx
  simp only [sign]
  split <;> omega

/-- The text of an integer. -/
theorem toText_eq (x : Integer) :
    ∃ t, toText b.toNat x = .ok t ∧
      utf8 t = if x.isNegative then '-'.toUInt8 :: x.magnitudeTokens b else x.magnitudeTokens b := by
  refine ⟨_, congrArg (Except.map ofAscii) (tokens_eq b x), utf8_ofAscii ?_⟩
  split
  · exact List.forall_mem_cons.2 ⟨by decide, ascii_magnitudeTokens b x⟩
  · exact ascii_magnitudeTokens b x

/-- What is written of an integer is read as it exactly where its sign is read. -/
theorem ofString_toText_iff {x : Integer} (hx : x.Coherent) {t : String} (h : toText b.toNat x = .ok t) :
    ofString b.toNat t = .ok x ↔ b.toNat ≤ Base.greatestSigned ∨ 0 ≤ x.toInt := by
  obtain ⟨t', h', bytes⟩ := toText_eq b x
  obtain rfl : t' = t := Except.ok.inj (h'.symm.trans h)
  have read := readIn_magnitudeTokens b x
  rw [ofString, bytes]
  cases neg : x.isNegative with
  | false =>
    have nonneg : 0 ≤ x.toInt := by
      rw [← Int.not_lt, ← isNegative_iff hx, neg]
      decide
    have sign : x.sign = .zero ∨ x.sign = .positive := by
      rw [isNegative] at neg
      cases hs : x.sign <;> simp [hs] at neg ⊢
    have split := splitSign_of_ne_sign (ne_sign_of_mem_magnitudeTokens b (x := x))
    rw [if_neg (by decide), parse_eq b split, read]
    constructor
    · intro _
      exact .inr nonneg
    · intro _
      exact congrArg Except.ok (make_magnitude hx (by decide) sign)
  | true =>
    have negative : x.toInt < 0 := (isNegative_iff hx).1 neg
    rw [if_pos rfl]
    by_cases signed : b.toNat ≤ Base.greatestSigned
    · have split : splitSign b.toNat ('-'.toUInt8 :: x.magnitudeTokens b) =
          (true, x.magnitudeTokens b) := if_pos ⟨signed, rfl⟩
      rw [parse_eq b split, read]
      constructor
      · intro _
        exact .inl signed
      · intro _
        exact congrArg Except.ok (make_magnitude hx (by decide) (.inr (beq_iff_eq.1 neg)))
    · -- the minus is a token here, and has no value
      have unsigned : splitSign b.toNat ('-'.toUInt8 :: x.magnitudeTokens b) =
          (false, '-'.toUInt8 :: x.magnitudeTokens b) := by
        apply splitSign_of_ne_sign
        intro h
        exact absurd h signed
      have refused : Numeral.readToken b '-'.toUInt8 = .error (.invalidToken '-'.toUInt8 b.toNat) := by
        rw [Numeral.readToken, tokenValue, Alphabet.value_minus]
      rw [parse_eq b unsigned, Numeral.readIn_eq, Numeral.readTokens_cons, refused]
      constructor
      · rintro ⟨⟩
      · rintro (h | h)
        · exact absurd h signed
        · omega

/-! ### Integers that are read are written canonically -/

/-- Places below the base are written as they are, without the zeros at the front. -/
theorem valuesIn_eq_dropZeros {ds : Digits} {vs : List Nat} (ne : vs ≠ [])
    (lt : ∀ v ∈ vs, v < b.toNat) (value : Digits.value ds = Numeral.positional b.toNat vs) :
    Numeral.valuesIn b ds = dropZeros (· == 0) vs := by
  rw [Numeral.valuesIn_eq, value]
  clear value
  fun_induction dropZeros (· == 0) vs with
  | case1 => exact absurd rfl ne
  | case2 v =>
    have single : Numeral.positional b.toNat [v] = v := Nat.ofDigits_singleton ..
    rw [single]
    split
    · next z => rw [z]
    · next nonzero => rw [Nat.digits_of_lt _ _ nonzero (lt v List.mem_cons_self), List.reverse_singleton]
  | case3 v w l zero ih =>
    rw [List.forall_mem_cons] at lt
    rw [Numeral.positional_cons, beq_iff_eq.1 zero, Nat.zero_mul, Nat.zero_add]
    exact ih (List.cons_ne_nil _ _) lt.2
  | case4 v w l nonzero =>
    have vpos : v ≠ 0 := mt beq_iff_eq.2 nonzero
    have pos : Numeral.positional b.toNat (v :: w :: l) ≠ 0 := by
      rw [Numeral.positional_cons]
      refine Nat.ne_of_gt (Nat.add_pos_left (Nat.mul_pos (Nat.pos_of_ne_zero vpos) ?_) _)
      exact Nat.pow_pos b.pos
    rw [if_neg pos, Numeral.positional, Nat.digits_ofDigits _ (Numeral.one_lt_toNat b),
      List.reverse_reverse]
    · intro u mem
      exact lt u (List.mem_reverse.1 mem)
    · intro ne
      rw [List.getLast_reverse]
      exact vpos

/-- Lists that correspond element by element do so without their zeros, when zeros correspond. -/
theorem forall₂_dropZeros {α β : Type} {r : α → β → Prop} {p : α → Bool} {q : β → Bool}
    (agree : ∀ {a c}, r a c → p a = q c) {as : List α} {cs : List β} (h : List.Forall₂ r as cs) :
    List.Forall₂ r (dropZeros p as) (dropZeros q cs) := by
  induction h with
  | nil => exact .nil
  | cons first rest ih =>
    cases rest with
    | nil => exact .cons first .nil
    | cons second rest =>
      rw [dropZeros, dropZeros, agree first]
      split
      · exact ih
      · exact .cons first (.cons second rest)

/-- The tokens that are written are the tokens that were read, without the zeros at the front. -/
theorem map_valueToken_dropZeros {us : List UInt8} {vs : List Nat}
    (read : Numeral.readTokens b us = .ok vs) :
    (dropZeros (· == 0) vs).map (valueToken b.toNat) =
      (dropZeros (fun t => tokenValue b.toNat t == some 0) us).map
        (Alphabet.ofBase b.toNat).written := by
  have pairs := forall₂_dropZeros (p := fun t => tokenValue b.toNat t == some 0) (q := (· == 0))
    (fun {t v} h => by simp [(Numeral.readToken_eq_ok_iff.1 h).1])
    (Numeral.readTokens_eq_ok_iff.1 read)
  generalize dropZeros _ us = us at *
  generalize dropZeros _ vs = vs at *
  clear read
  induction pairs with
  | nil => rfl
  | cons first _ ih =>
    rw [List.map_cons, List.map_cons, ih, Numeral.valueToken_of_readToken first]

theorem magnitude_make (s : Sign) (m : Magnitude) : (make s m).magnitude = m := by
  rw [make_eq]
  split
  · rfl
  · split <;> rfl

/-- A numeral that is read has at least one token, and each has a value. -/
theorem parse_eq_ok {ts : List UInt8} {x : Integer} (h : parse b.toNat ts = .ok x) :
    ∃ vs, Numeral.readTokens b (splitSign b.toNat ts).2 = .ok vs ∧ vs ≠ [] ∧
      x = make (Sign.ofNegative (splitSign b.toNat ts).1)
        (Magnitude.ofNat (Numeral.positional b.toNat vs)) := by
  have split : splitSign b.toNat ts = ((splitSign b.toNat ts).1, (splitSign b.toNat ts).2) := rfl
  rw [parse_eq b split, Numeral.readIn_eq] at h
  split at h
  · cases h
  · next ne =>
    obtain ⟨m, read, made⟩ := Except.map_eq_ok_iff.1 h
    obtain ⟨vs, hvs, rfl⟩ := Except.map_eq_ok_iff.1 read
    refine ⟨vs, hvs, ?_, made.symm⟩
    rintro rfl
    have none := Numeral.length_readTokens hvs
    rw [List.length_nil, eq_comm, List.length_eq_zero_iff] at none
    exact ne (List.isEmpty_iff.2 none)

/-- A minus is written where one was read, but not for zero. -/
theorem isNegative_ofNegative (negative : Bool) (m : Magnitude) :
    (make (Sign.ofNegative negative) m).isNegative = true ↔
      negative = true ∧ (make (Sign.ofNegative negative) m).toInt ≠ 0 := by
  rw [isNegative_iff (coherent_make ..), toInt_ofNegative]
  cases negative with
  | false => simp
  | true =>
    simp only [if_true, true_and]
    omega

/-- What is written of an integer that was read is the canonical spelling of its text. -/
theorem toText_ofString {s : String} {x : Integer} (h : ofString b.toNat s = .ok x) :
    ∃ t, toText b.toNat x = .ok t ∧ utf8 t = spelling b (utf8 s) x := by
  obtain ⟨vs, read, ne, made⟩ := parse_eq_ok b h
  obtain ⟨t, written, bytes⟩ := toText_eq b x
  have value : Digits.value x.digits = Numeral.positional b.toNat vs := by
    rw [made, digits, magnitude_make]
    exact Magnitude.toNat_ofNat _
  have body : x.magnitudeTokens b =
      (dropZeros (fun t => tokenValue b.toNat t == some 0) (splitSign b.toNat (utf8 s)).2).map
        (Alphabet.ofBase b.toNat).written := by
    rw [magnitudeTokens, valuesIn_eq_dropZeros b ne (Numeral.lt_of_mem_readTokens read) value,
      map_valueToken_dropZeros b read]
  have sign := isNegative_ofNegative (splitSign b.toNat (utf8 s)).1
    (Magnitude.ofNat (Numeral.positional b.toNat vs))
  rw [← made] at sign
  refine ⟨t, written, bytes.trans ?_⟩
  rw [spelling, body]
  simp only [sign]

/-- Text in a base round trips. What is written of an integer is read as that integer exactly when the
    base reads signs or there is none to read; and an integer that was read is written as the canonical
    spelling of the text it was read from. -/
theorem text_round_trip (b : Base) :
    (∀ x : Integer, x.Coherent →
      ∃ t, toText b.toNat x = .ok t ∧
        (ofString b.toNat t = .ok x ↔ b.toNat ≤ Base.greatestSigned ∨ 0 ≤ x.toInt)) ∧
      ∀ (s : String) (x : Integer), ofString b.toNat s = .ok x →
        ∃ t, toText b.toNat x = .ok t ∧ utf8 t = spelling b (utf8 s) x := by
  constructor
  · intro x hx
    obtain ⟨t, written, -⟩ := toText_eq b x
    exact ⟨t, written, ofString_toText_iff b hx written⟩
  · intro s x read
    exact toText_ofString b read

/-- A numeral with a sign, zeros at the front and letters of either case. -/
theorem text_round_trip_mixed_case :
    (∃ t, toText 16 (-one) = .ok t ∧ ofString 16 t = .ok (-one)) ∧
      ∃ t, toText 16 (make .negative (Magnitude.ofDigits [255])) = .ok t ∧ utf8 t = utf8 "-ff" := by
  constructor
  · obtain ⟨t, written, read⟩ := (text_round_trip .hexadecimal).1 (-one) (by decide)
    exact ⟨t, written, read.2 (.inl (by decide))⟩
  · have read : ofString 16 "-00fF" = .ok (make .negative (Magnitude.ofDigits [255])) := by
      decide +kernel
    obtain ⟨t, written, bytes⟩ := (text_round_trip .hexadecimal).2 _ _ read
    exact ⟨t, written, bytes.trans (by decide +kernel)⟩

end Multiprecision.Integer
