import Multiprecision.Proofs.Numeral.Reading
import Multiprecision.Proofs.Token

/-! The grammar of numerals, with the number that each numeral denotes. It is given by what a numeral is
    made of, not by how one is read: one or more tokens of a base, a mark before them where the base is
    left open, and a sign before both. Main statement: a numeral is read in a base as the magnitude `m`
    exactly when it is one or more tokens that denote the number of `m`. -/

namespace Multiprecision.Numeral

/-- One or more tokens of a base, the highest place first, and the number they denote. -/
inductive Tokens (b : Base) : List UInt8 → Nat → Prop where
  | single {t : UInt8} {v : Nat} : IsToken b t v → Tokens b [t] v
  | snoc {ts : List UInt8} {n : Nat} {t : UInt8} {v : Nat} :
    Tokens b ts n → IsToken b t v → Tokens b (ts ++ [t]) (n * b.toNat + v)

/-- A numeral without a sign, and the number it denotes. For the base 0 the numeral names its base: `0`
    and a letter stand for base 2 or 16, `0` before other tokens for base 8, and all else is decimal,
    where nothing but zero itself begins with `0`. -/
inductive Unsigned : Nat → List UInt8 → Nat → Prop where
  | inBase {b : Base} {ts : List UInt8} {n : Nat} : Tokens b ts n → Unsigned b.toNat ts n
  | binary {letter : UInt8} {ts : List UInt8} {n : Nat} :
    letter = 'b'.toUInt8 ∨ letter = 'B'.toUInt8 → Tokens .binary ts n →
      Unsigned 0 ('0'.toUInt8 :: letter :: ts) n
  | hexadecimal {letter : UInt8} {ts : List UInt8} {n : Nat} :
    letter = 'x'.toUInt8 ∨ letter = 'X'.toUInt8 → Tokens .hexadecimal ts n →
      Unsigned 0 ('0'.toUInt8 :: letter :: ts) n
  | octal {ts : List UInt8} {n : Nat} : Tokens .octal ts n → Unsigned 0 ('0'.toUInt8 :: ts) n
  | zero : Unsigned 0 ['0'.toUInt8] 0
  | decimal {t : UInt8} {ts : List UInt8} {n : Nat} :
    t ≠ '0'.toUInt8 → Tokens .decimal (t :: ts) n → Unsigned 0 (t :: ts) n

/-- A numeral, and the number it denotes. A sign may stand in front of it where the base is at most 62. -/
inductive Signed : Nat → List UInt8 → Int → Prop where
  | bare {base : Nat} {ts : List UInt8} {n : Nat} : Unsigned base ts n → Signed base ts n
  | plus {base : Nat} {ts : List UInt8} {n : Nat} :
    base ≤ Base.greatestSigned → Unsigned base ts n → Signed base ('+'.toUInt8 :: ts) n
  | minus {base : Nat} {ts : List UInt8} {n : Nat} :
    base ≤ Base.greatestSigned → Unsigned base ts n → Signed base ('-'.toUInt8 :: ts) (-n)

/-! ### Bytes of a numeral -/

section Bytes

variable {b : Base} {base : Nat} {t : UInt8} {ts : List UInt8} {v n : Nat}

/-- The letters that name a base are no tokens of base 8. -/
theorem IsToken.notMem_letters (h : IsToken .octal t v) : t ∉ ['b', 'B', 'x', 'X'].map Char.toUInt8 := by
  have large : ∀ t ∈ ['b', 'B', 'x', 'X'].map Char.toUInt8, ∀ v ∈ tokenValue 8 t, 8 ≤ v := by
    decide +kernel
  intro mem
  exact Nat.not_lt_of_le (large t mem v h.1) h.2

theorem Tokens.ne_nil (h : Tokens b ts n) : ts ≠ [] := by
  cases h with
  | single => simp
  | snoc => simp

/-- A single token denotes its value. -/
theorem Tokens.of_singleton (h : Tokens b [t] n) : IsToken b t n := by
  generalize alone : [t] = ts at h
  cases h with
  | single token =>
    cases alone
    exact token
  | snoc front _ =>
    obtain ⟨none, -⟩ | ⟨-, none⟩ := List.append_eq_singleton_iff.1 alone.symm
    · exact absurd none front.ne_nil
    · cases none

/-- A byte is a token of some base, and of one that reads signs if the base `base` does. -/
def IsTokenBeside (base : Nat) (t : UInt8) : Prop :=
  ∃ b v, IsToken b t v ∧ (base ≤ Base.greatestSigned → b.toNat ≤ Base.greatestSigned)

/-- Every byte of a sequence of tokens is a token. -/
theorem Tokens.isToken (h : Tokens b ts n) : ∀ t ∈ ts, ∃ v, IsToken b t v := by
  induction h with
  | single token => exact List.forall_mem_singleton.2 ⟨_, token⟩
  | snoc _ token ih => exact List.forall_mem_append.2 ⟨ih, List.forall_mem_singleton.2 ⟨_, token⟩⟩

theorem Tokens.beside (h : Tokens b ts n)
    (signed : base ≤ Base.greatestSigned → b.toNat ≤ Base.greatestSigned) :
    ∀ t ∈ ts, IsTokenBeside base t := by
  intro t mem
  obtain ⟨v, token⟩ := h.isToken t mem
  exact ⟨b, v, token, signed⟩

/-- The bytes that name a base are tokens of base 36. -/
theorem beside_of_mark (base : Nat) :
    ∀ t ∈ ['0', 'b', 'B', 'x', 'X'].map Char.toUInt8, IsTokenBeside base t := by
  have token : ∀ t ∈ ['0', 'b', 'B', 'x', 'X'].map Char.toUInt8,
      ∃ v < 36, IsToken ⟨36, by decide, by decide⟩ t v := by decide +kernel
  intro t mem
  obtain ⟨v, -, h⟩ := token t mem
  exact ⟨_, v, h, fun _ => by decide⟩

/-- Every byte of a numeral without a sign is a token, the bytes that name its base included. -/
theorem Unsigned.beside (h : Unsigned base ts n) : ∀ t ∈ ts, IsTokenBeside base t := by
  have mark := beside_of_mark base
  have named : ∀ b : Base, b.toNat ≤ Base.greatestSigned →
      (base ≤ Base.greatestSigned → b.toNat ≤ Base.greatestSigned) := by
    intro b signed _
    exact signed
  cases h with
  | inBase tokens => exact tokens.beside id
  | binary letter tokens =>
    refine List.forall_mem_cons.2 ⟨mark _ (by decide), List.forall_mem_cons.2 ⟨mark _ ?_, ?_⟩⟩
    · rcases letter with rfl | rfl <;> decide
    · exact tokens.beside (named _ (by decide))
  | hexadecimal letter tokens =>
    refine List.forall_mem_cons.2 ⟨mark _ (by decide), List.forall_mem_cons.2 ⟨mark _ ?_, ?_⟩⟩
    · rcases letter with rfl | rfl <;> decide
    · exact tokens.beside (named _ (by decide))
  | octal tokens =>
    exact List.forall_mem_cons.2 ⟨mark _ (by decide), tokens.beside (named _ (by decide))⟩
  | zero => exact List.forall_mem_singleton.2 (mark _ (by decide))
  | decimal _ tokens => exact tokens.beside (named _ (by decide))

theorem Unsigned.ascii (h : Unsigned base ts n) : ∀ t ∈ ts, t < 128 := by
  intro t mem
  obtain ⟨b, v, token, -⟩ := h.beside t mem
  exact token.ascii

/-- A numeral that may carry a sign holds none besides. -/
theorem Unsigned.ne_sign (h : Unsigned base ts n) (signed : base ≤ Base.greatestSigned) :
    ∀ t ∈ ts, t ≠ '-'.toUInt8 ∧ t ≠ '+'.toUInt8 := by
  intro t mem
  obtain ⟨b, v, token, le⟩ := h.beside t mem
  exact token.ne_sign (le signed)

theorem Signed.ascii {z : Int} (h : Signed base ts z) : ∀ t ∈ ts, t < 128 := by
  cases h with
  | bare body => exact body.ascii
  | plus _ body => exact List.forall_mem_cons.2 ⟨by decide, body.ascii⟩
  | minus _ body => exact List.forall_mem_cons.2 ⟨by decide, body.ascii⟩

end Bytes

/-! ### Tokens that are read -/

section Reading

variable {b : Base} {t : UInt8} {ts : List UInt8} {n : Nat} {vs : List Nat}

/-- The last token is read after those before it. -/
theorem readTokens_snoc :
    readTokens b (ts ++ [t]) = .ok vs ↔
      ∃ us v, readTokens b ts = .ok us ∧ IsToken b t v ∧ vs = us ++ [v] := by
  rw [readTokens_append, readTokens_cons, readTokens_nil]
  constructor
  · intro h
    obtain ⟨us, hus, h⟩ := Except.bind_eq_ok_iff.1 h
    obtain ⟨ws, hws, rfl⟩ := Except.map_eq_ok_iff.1 h
    obtain ⟨v, hv, last⟩ := Except.bind_eq_ok_iff.1 hws
    cases last
    exact ⟨us, v, hus, readToken_eq_ok_iff.1 hv, rfl⟩
  · rintro ⟨us, v, hus, token, rfl⟩
    rw [hus, readToken_eq_ok_iff.2 token]
    rfl

theorem positional_snoc (base : Nat) (vs : List Nat) (v : Nat) :
    positional base (vs ++ [v]) = positional base vs * base + v := by
  have last : positional base [v] = v := Nat.ofDigits_singleton ..
  rw [positional_append, last, List.length_singleton, Nat.pow_one]

/-- Tokens denote the positional value of what they are read as. -/
theorem tokens_iff :
    Tokens b ts n ↔ ts ≠ [] ∧ ∃ vs, readTokens b ts = .ok vs ∧ positional b.toNat vs = n := by
  constructor
  · intro h
    refine ⟨h.ne_nil, ?_⟩
    induction h with
    | single token =>
      refine ⟨_, readTokens_snoc.2 ⟨[], _, readTokens_nil b, token, rfl⟩, ?_⟩
      exact Nat.ofDigits_singleton ..
    | snoc _ token ih =>
      obtain ⟨vs, read, rfl⟩ := ih
      exact ⟨_, readTokens_snoc.2 ⟨vs, _, read, token, rfl⟩, positional_snoc ..⟩
  · rintro ⟨ne, vs, read, rfl⟩
    induction ts using List.reverseRecOn generalizing vs with
    | nil => exact absurd rfl ne
    | append_singleton ts t ih =>
      obtain ⟨us, v, readFront, token, rfl⟩ := readTokens_snoc.1 read
      by_cases first : ts = []
      · subst first
        obtain rfl : [] = us := Except.ok.inj ((readTokens_nil b).symm.trans readFront)
        have value : positional b.toNat [v] = v := Nat.ofDigits_singleton ..
        rw [List.nil_append, List.nil_append, value]
        exact .single token
      · rw [positional_snoc]
        exact .snoc (ih first us readFront) token

/-- What is read in a base is one or more of its tokens, as the number they denote. -/
theorem readIn_eq_ok_iff {m : Magnitude} : readIn b ts = .ok m ↔ Tokens b ts m.toNat := by
  rw [readIn_eq, tokens_iff]
  constructor
  · intro h
    split at h
    · cases h
    · next ne =>
      rw [List.isEmpty_iff] at ne
      obtain ⟨vs, read, rfl⟩ := Except.map_eq_ok_iff.1 h
      exact ⟨ne, vs, read, (Magnitude.toNat_ofNat _).symm⟩
  · rintro ⟨ne, vs, read, value⟩
    rw [if_neg (mt List.isEmpty_iff.1 ne), Except.map_eq_ok_iff]
    exact ⟨vs, read, (congrArg Magnitude.ofNat value).trans m.ofNat_toNat⟩

end Reading

end Multiprecision.Numeral
