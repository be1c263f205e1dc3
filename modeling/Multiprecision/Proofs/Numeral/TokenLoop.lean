import Multiprecision.Proofs.Numeral.Reading

/-! Reading in chunks against reading one token after the other. The loop that for each token multiplies by
    the base and adds the token's value has neither chunks nor zeros to pass over; numerals are read as by
    this loop, and where one is refused, the byte that is named is the first bad one of the whole. -/

namespace Multiprecision.Numeral

/-- The magnitude times the base plus the value of a token, which must be below the base. -/
def plainStep (base : Nat) (m : Magnitude) (t : UInt8) : Except Error Magnitude :=
  if Alphabet.code base t < base then .ok (Magnitude.ofNat (m.toNat * base + Alphabet.code base t))
  else .error (.invalidToken t base)

/-- The magnitude of a numeral in a base, one token after the other. -/
def readPlainly (base : Nat) (tokens : List UInt8) : Except Error Magnitude :=
  if base < leastBase ∨ greatestBase < base then .error (.unsupportedBase base)
  else if tokens.isEmpty then .error .emptyNumeral
  else tokens.foldlM (plainStep base) Magnitude.zero

/-! ### Values of tokens -/

section Tokens

variable {b : Base} {t : UInt8} {ts : List UInt8} {e : Error}

/-- A byte without a value has a number that is not below any base. -/
theorem le_code {a : Alphabet} (same : Alphabet.ofBase b.toNat = a) (none : a.value t = none) :
    b.toNat ≤ Alphabet.code b.toNat t := by
  have le : b.toNat ≤ 64 := b.le_greatest
  rw [Alphabet.code, same]
  cases a with
  | caseless =>
    rw [none]
    exact le.trans (by decide : 64 ≤ 255)
  | mixed =>
    rw [none]
    exact le.trans (by decide : 64 ≤ 4294967295)

theorem code_eq {a : Alphabet} {v : Nat} (same : Alphabet.ofBase b.toNat = a) (some : a.value t = some v) :
    Alphabet.code b.toNat t = v := by
  rw [Alphabet.code, same]
  cases a <;> rw [some, Option.getD_some]

theorem readToken_eq (b : Base) (t : UInt8) :
    readToken b t =
      if Alphabet.code b.toNat t < b.toNat then .ok (Alphabet.code b.toNat t)
      else .error (.invalidToken t b.toNat) := by
  rw [readToken, tokenValue]
  cases value : (Alphabet.ofBase b.toNat).value t with
  | none => rw [if_neg (Nat.not_lt.2 (le_code rfl value))]
  | some v => rw [code_eq rfl value]

theorem readToken_eq_error_iff :
    readToken b t = .error e ↔ b.toNat ≤ Alphabet.code b.toNat t ∧ e = .invalidToken t b.toNat := by
  rw [readToken_eq]
  split
  · next small =>
    constructor
    · rintro ⟨⟩
    · rintro ⟨large, -⟩
      omega
  · next large =>
    constructor
    · rintro ⟨⟩
      exact ⟨Nat.not_lt.1 large, rfl⟩
    · rintro ⟨-, rfl⟩
      rfl

theorem exists_readTokens (below : ∀ u ∈ ts, Alphabet.code b.toNat u < b.toNat) :
    ∃ vs, readTokens b ts = .ok vs := by
  induction ts with
  | nil => exact ⟨[], rfl⟩
  | cons t ts ih =>
    rw [List.forall_mem_cons] at below
    obtain ⟨vs, read⟩ := ih below.2
    refine ⟨Alphabet.code b.toNat t :: vs, ?_⟩
    rw [readTokens_cons, readToken_eq, if_pos below.1, read]
    rfl

/-- Tokens are refused for the first one whose value is not below the base. -/
theorem readTokens_eq_error_iff :
    readTokens b ts = .error e ↔
      ∃ front t back, ts = front ++ t :: back ∧
        (∀ u ∈ front, Alphabet.code b.toNat u < b.toNat) ∧ b.toNat ≤ Alphabet.code b.toNat t ∧
          e = .invalidToken t b.toNat := by
  constructor
  · intro refused
    induction ts with
    | nil => cases refused
    | cons t ts ih =>
      rw [readTokens_cons, readToken_eq] at refused
      split at refused
      · next small =>
        obtain ⟨front, u, back, rfl, below, bad⟩ := ih (Except.map_eq_error_iff.1 refused)
        exact ⟨t :: front, u, back, rfl, List.forall_mem_cons.2 ⟨small, below⟩, bad⟩
      · next large =>
        cases refused
        exact ⟨[], t, ts, rfl, by simp, Nat.not_lt.1 large, rfl⟩
  · rintro ⟨front, t, back, rfl, below, bad⟩
    obtain ⟨vs, read⟩ := exists_readTokens below
    rw [readTokens_append, read, readTokens_cons, readToken_eq_error_iff.2 bad]
    rfl

end Tokens

/-! ### The loop -/

/-- The loop gives the positional value of the tokens after that of what stands above them. -/
theorem foldlM_plainStep (b : Base) (ts : List UInt8) (m : Magnitude) :
    ts.foldlM (plainStep b.toNat) m =
      (readTokens b ts).map fun vs =>
        Magnitude.ofNat (m.toNat * b.toNat ^ ts.length + positional b.toNat vs) := by
  induction ts generalizing m with
  | nil =>
    have whole : m.toNat * b.toNat ^ 0 + positional b.toNat [] = m.toNat := by
      rw [Nat.pow_zero, Nat.mul_one]
      rfl
    exact congrArg Except.ok (m.ofNat_toNat.symm.trans (congrArg Magnitude.ofNat whole.symm))
  | cons t ts ih =>
    rw [List.foldlM_cons, plainStep, readTokens_cons, readToken_eq]
    split
    · change ts.foldlM (plainStep b.toNat) _ = ((readTokens b ts).map _).map _
      rw [ih, Magnitude.toNat_ofNat]
      cases hvs : readTokens b ts with
      | error e => rfl
      | ok vs =>
        refine congrArg (Except.ok ∘ Magnitude.ofNat) ?_
        rw [positional_cons, length_readTokens hvs, List.length_cons, Nat.pow_succ']
        ring
    · rfl

theorem readIn_eq_foldlM (b : Base) (ts : List UInt8) :
    readIn b ts =
      if ts.isEmpty then .error .emptyNumeral else ts.foldlM (plainStep b.toNat) Magnitude.zero := by
  rw [readIn_eq, foldlM_plainStep]
  simp only [Magnitude.toNat_zero, Nat.zero_mul, Nat.zero_add]

/-- A byte is named in a supported base, and only as the first whose value is not below the base. -/
theorem read_eq_invalidToken_iff {base : Nat} {ts : List UInt8} {t : UInt8} :
    read base ts = .error (.invalidToken t base) ↔
      (leastBase ≤ base ∧ base ≤ greatestBase) ∧
        ∃ front back, ts = front ++ t :: back ∧
          (∀ u ∈ front, Alphabet.code base u < base) ∧ base ≤ Alphabet.code base t := by
  rw [read, Base.ofNat]
  split
  · next supported =>
    change readIn ⟨base, supported.1, supported.2⟩ ts = _ ↔ _
    rw [readIn_eq]
    constructor
    · intro refused
      split at refused
      · cases refused
      · obtain ⟨front, u, back, rfl, below, large, same⟩ :=
          readTokens_eq_error_iff.1 (Except.map_eq_error_iff.1 refused)
        cases same
        exact ⟨supported, front, back, rfl, below, large⟩
    · rintro ⟨-, front, back, rfl, below, large⟩
      rw [if_neg (by simp), Except.map_eq_error_iff]
      exact readTokens_eq_error_iff.2 ⟨front, t, back, rfl, below, large, rfl⟩
  · next outside =>
    constructor
    · rintro ⟨⟩
    · rintro ⟨supported, -⟩
      exact absurd supported outside

/-- A numeral is read as by the loop over its tokens, to the same magnitude or the same refusal. A byte is
    named exactly when it is the first of the whole whose value is not below the base. -/
theorem read_token_by_token (base : Nat) (ts : List UInt8) :
    read base ts = readPlainly base ts ∧
      ∀ t, read base ts = .error (.invalidToken t base) ↔
        (leastBase ≤ base ∧ base ≤ greatestBase) ∧
          ∃ front back, ts = front ++ t :: back ∧
            (∀ u ∈ front, Alphabet.code base u < base) ∧ base ≤ Alphabet.code base t := by
  constructor
  · rw [read, readPlainly, Base.ofNat]
    split
    · next supported =>
      rw [if_neg (by omega)]
      exact readIn_eq_foldlM _ ts
    · next outside =>
      rw [if_pos (by omega)]
      rfl
  · intro t
    exact read_eq_invalidToken_iff

end Multiprecision.Numeral
