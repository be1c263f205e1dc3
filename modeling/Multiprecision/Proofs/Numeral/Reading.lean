import Mathlib.Data.Nat.Digits.Lemmas
import Mathlib.Tactic.Ring
import Multiprecision.Proofs.Digits.Order
import Multiprecision.Proofs.Result
import Multiprecision.Proofs.Token

/-! A numeral is read as the positional value of its tokens, or fails at its first invalid token. The
    chunks, and the zeros passed over at the front, do not show. -/

namespace Multiprecision.Numeral

/-- The positional value of places, the highest first. -/
def positional (base : Nat) (vs : List Nat) : Nat := Nat.ofDigits base vs.reverse

theorem positional_cons (base v : Nat) (vs : List Nat) :
    positional base (v :: vs) = v * base ^ vs.length + positional base vs := by
  rw [positional, List.reverse_cons, Nat.ofDigits_append, Nat.ofDigits_singleton, List.length_reverse,
    positional, Nat.mul_comm, Nat.add_comm]

theorem positional_append (base : Nat) (us vs : List Nat) :
    positional base (us ++ vs) = positional base us * base ^ vs.length + positional base vs := by
  rw [positional, List.reverse_append, Nat.ofDigits_append, List.length_reverse, positional,
    positional, Nat.mul_comm, Nat.add_comm]

/-- The values of tokens, or the error that names the first one without a value below the base. -/
def readTokens (b : Base) (ts : List UInt8) : Except Error (List Nat) := ts.mapM (readToken b)

section Tokens

variable {b : Base} {t : UInt8} {ts us : List UInt8} {v : Nat} {vs : List Nat}

theorem readTokens_nil (b : Base) : readTokens b [] = .ok [] := rfl

theorem readTokens_cons (b : Base) (t : UInt8) (ts : List UInt8) :
    readTokens b (t :: ts) = (readToken b t).bind fun v => (readTokens b ts).map (v :: ·) := by
  rw [readTokens, List.mapM_cons]
  cases readToken b t with
  | error e => rfl
  | ok v =>
    rw [readTokens]
    cases List.mapM (readToken b) ts <;> rfl

theorem readTokens_append (b : Base) (ts us : List UInt8) :
    readTokens b (ts ++ us) = (readTokens b ts).bind fun vs => (readTokens b us).map (vs ++ ·) := by
  rw [readTokens, List.mapM_append, readTokens, readTokens]
  cases List.mapM (readToken b) ts with
  | error e => rfl
  | ok vs => cases List.mapM (readToken b) us <;> rfl

theorem readToken_lt (h : readToken b t = .ok v) : v < b.toNat := (readToken_eq_ok_iff.1 h).2

/-- Tokens are read one by one. -/
theorem readTokens_eq_ok_iff :
    readTokens b ts = .ok vs ↔ List.Forall₂ (fun t v => readToken b t = .ok v) ts vs := by
  induction ts generalizing vs with
  | nil =>
    rw [readTokens_nil, List.forall₂_nil_left_iff]
    constructor
    · rintro ⟨⟩
      rfl
    · rintro rfl
      rfl
  | cons t ts ih =>
    rw [readTokens_cons, List.forall₂_cons_left_iff, Except.bind_eq_ok_iff]
    constructor
    · rintro ⟨v, hv, h⟩
      obtain ⟨ws, hw, rfl⟩ := Except.map_eq_ok_iff.1 h
      exact ⟨v, ws, hv, ih.1 hw, rfl⟩
    · rintro ⟨v, ws, hv, hw, rfl⟩
      exact ⟨v, hv, Except.map_eq_ok_iff.2 ⟨ws, ih.2 hw, rfl⟩⟩

theorem length_readTokens (h : readTokens b ts = .ok vs) : vs.length = ts.length :=
  (readTokens_eq_ok_iff.1 h).length_eq.symm

theorem lt_of_mem_readTokens (h : readTokens b ts = .ok vs) : ∀ v ∈ vs, v < b.toNat := by
  have pairs := readTokens_eq_ok_iff.1 h
  clear h
  induction pairs with
  | nil => simp
  | cons hv _ ih => exact List.forall_mem_cons.2 ⟨readToken_lt hv, ih⟩

theorem positional_lt (lt : ∀ v ∈ vs, v < b.toNat) : positional b.toNat vs < b.toNat ^ vs.length := by
  rw [positional, ← List.length_reverse]
  apply Nat.ofDigits_lt_base_pow_length b.two_le
  intro v mem
  exact lt v (List.mem_reverse.1 mem)

end Tokens

/-! ### Chunks -/

/-- One more token after a value fits in a digit as long as what may follow does. -/
theorem toNat_next (b : Base) {v : Digit} {x k : Nat} (lt : x < b.toNat)
    (fits : (v.toNat + 1) * b.toNat ^ (k + 1) ≤ Digit.base) :
    (v * b.digit + Digit.low x).toNat = v.toNat * b.toNat + x ∧
      (v.toNat * b.toNat + x + 1) * b.toNat ^ k ≤ Digit.base := by
  have step : v.toNat * b.toNat + x + 1 ≤ (v.toNat + 1) * b.toNat := by
    rw [Nat.succ_mul]
    omega
  have after : (v.toNat * b.toNat + x + 1) * b.toNat ^ k ≤ Digit.base :=
    calc (v.toNat * b.toNat + x + 1) * b.toNat ^ k ≤ (v.toNat + 1) * b.toNat * b.toNat ^ k :=
          Nat.mul_le_mul_right _ step
      _ = (v.toNat + 1) * b.toNat ^ (k + 1) := by rw [Nat.pow_succ']; ring
      _ ≤ Digit.base := fits
  have digit : v.toNat * b.toNat + x < Digit.base := by
    have room := Nat.le_mul_of_pos_right (v.toNat * b.toNat + x + 1) (Nat.pow_pos (n := k) b.pos)
    omega
  have hx : (Digit.low x).toNat = x := Digit.toNat_low_of_lt (by omega)
  refine ⟨?_, after⟩
  rw [UInt64.toNat_add, UInt64.toNat_mul, Base.toNat_digit, hx, Nat.mod_add_mod]
  exact Nat.mod_eq_of_lt digit

/-- A chunk that fits in a digit is read as its positional value after what stands above it. -/
theorem readChunk_eq (b : Base) {ts : List UInt8} {v : Digit}
    (fits : (v.toNat + 1) * b.toNat ^ ts.length ≤ Digit.base) :
    readChunk b ts v =
      (readTokens b ts).map fun vs =>
        Digit.low (v.toNat * b.toNat ^ ts.length + positional b.toNat vs) := by
  induction ts generalizing v with
  | nil =>
    have whole : Digit.low v.toNat = v := by
      rw [← UInt64.toNat_inj, Digit.toNat_low_of_lt (Digit.toNat_lt_base v)]
    rw [readChunk, readTokens_nil, List.length_nil, Nat.pow_zero, Nat.mul_one]
    exact congrArg Except.ok whole.symm
  | cons t ts ih =>
    rw [readChunk, readTokens_cons]
    cases hx : readToken b t with
    | error e => rfl
    | ok x =>
      obtain ⟨value, after⟩ := toNat_next b (readToken_lt hx) fits
      have rest := ih (v := v * b.digit + Digit.low x) (by rw [value]; exact after)
      dsimp only
      rw [rest, value]
      cases hvs : readTokens b ts with
      | error e => rfl
      | ok vs =>
        refine congrArg (Except.ok ∘ Digit.low) ?_
        rw [positional_cons, length_readTokens hvs, List.length_cons, Nat.pow_succ']
        ring

theorem value_multiplyAdd (m : Digit) (ds : Digits) (carry : Digit) :
    Digits.value (multiplyAdd m ds carry) = Digits.value ds * m.toNat + carry.toNat := by
  induction ds generalizing carry with
  | nil =>
    rw [multiplyAdd]
    split
    · next z => simp [z]
    · simp
  | cons d ds ih =>
    have law := Digit.mulAdd_law d m carry 0
    rw [UInt64.toNat_zero, Nat.add_zero] at law
    rw [multiplyAdd, Digits.value_cons, Digits.value_cons, ih, Nat.mul_add, Nat.add_left_comm, law]
    ring

/-- The power of the base that a chunk spans fits in a digit. -/
theorem toNat_spanned (b : Base) {chunk : List UInt8} (le : chunk.length ≤ b.chunkLength) :
    (spanned b chunk).toNat = b.toNat ^ chunk.length ∧ b.toNat ^ chunk.length ≤ Digit.base := by
  have whole : b.chunkPower.toNat = b.toNat ^ b.chunkLength := b.toNat_chunkPower
  have lt := Digit.toNat_lt_base b.chunkPower
  have mono : b.toNat ^ chunk.length ≤ b.toNat ^ b.chunkLength := Nat.pow_le_pow_right b.pos le
  have fits : b.toNat ^ chunk.length < Digit.base := by omega
  refine ⟨?_, Nat.le_of_lt fits⟩
  rw [spanned]
  split
  · next full => rw [full, whole]
  · exact Digit.toNat_low_of_lt fits

/-- Nothing stands above the first token of a chunk. -/
theorem fits_of_length_le {b : Base} {chunk : List UInt8} (le : chunk.length ≤ b.chunkLength) :
    ((0 : Digit).toNat + 1) * b.toNat ^ chunk.length ≤ Digit.base := by
  rw [UInt64.toNat_zero, Nat.zero_add, Nat.one_mul]
  exact (toNat_spanned b le).2

/-- Chunks that fit in a digit are read as their positional value after the digits above them. -/
theorem readChunks_eq (b : Base) {cs : List (List UInt8)} (fit : ∀ c ∈ cs, c.length ≤ b.chunkLength)
    (ds : Digits) :
    (readChunks b cs ds).map Digits.value =
      (readTokens b cs.flatten).map fun vs =>
        Digits.value ds * b.toNat ^ cs.flatten.length + positional b.toNat vs := by
  induction cs generalizing ds with
  | nil =>
    refine congrArg Except.ok ?_
    rw [List.flatten_nil, List.length_nil, Nat.pow_zero, Nat.mul_one]
    rfl
  | cons c cs ih =>
    rw [List.forall_mem_cons] at fit
    obtain ⟨span, fits⟩ := toNat_spanned b fit.1
    rw [readChunks, readChunk_eq b (fits_of_length_le fit.1), List.flatten_cons, readTokens_append]
    cases hvs : readTokens b c with
    | error e => rfl
    | ok vs =>
      have length := length_readTokens hvs
      have digit : (Digit.low (positional b.toNat vs)).toNat = positional b.toNat vs := by
        refine Digit.toNat_low_of_lt (Nat.lt_of_lt_of_le ?_ fits)
        rw [← length]
        exact positional_lt (lt_of_mem_readTokens hvs)
      have rest := ih fit.2 (multiplyAdd (spanned b c) ds (Digit.low (positional b.toNat vs)))
      rw [value_multiplyAdd, digit, span] at rest
      rw [UInt64.toNat_zero, Nat.zero_mul]
      simp only [Except.map, Nat.zero_add, Except.bind] at rest ⊢
      rw [rest]
      cases hus : readTokens b cs.flatten with
      | error e => rfl
      | ok us =>
        refine congrArg Except.ok ?_
        rw [positional_append, length_readTokens hus, List.length_append, Nat.pow_add]
        ring

/-! ### The whole numeral -/

/-- The tokens are read with the zeros at the front as without them. -/
theorem readTokens_significant (b : Base) (ts : List UInt8) :
    (readTokens b ts).map (positional b.toNat) =
      (readTokens b (significant b ts)).map (positional b.toNat) := by
  induction ts with
  | nil => rfl
  | cons t ts ih =>
    rw [significant, List.dropWhile_cons]
    split
    · next zero =>
      have value : readToken b t = .ok 0 := by
        rw [readToken, beq_iff_eq.1 zero]
        exact if_pos b.pos
      have skipped : (readTokens b (t :: ts)).map (positional b.toNat) =
          (readTokens b ts).map (positional b.toNat) := by
        rw [readTokens_cons, value]
        cases readTokens b ts with
        | error e => rfl
        | ok vs =>
          refine congrArg Except.ok ?_
          rw [positional_cons, Nat.zero_mul, Nat.zero_add]
      exact skipped.trans ih
    · rfl

/-- No chunk of a numeral is longer than the ones that fit in a digit. -/
theorem length_le_of_mem_significant {b : Base} {ts chunk : List UInt8}
    (mem : chunk ∈ chunks b.chunkLength (significant b ts)) : chunk.length ≤ b.chunkLength :=
  (length_le_of_mem_chunks b.chunkLength_pos mem).2

/-- A numeral is read token by token as its positional value. -/
theorem readIn_eq (b : Base) (ts : List UInt8) :
    readIn b ts =
      if ts.isEmpty then .error .emptyNumeral
      else (readTokens b ts).map fun vs => Magnitude.ofNat (positional b.toNat vs) := by
  rw [readIn]
  split
  · rfl
  · have fit : ∀ c ∈ chunks b.chunkLength (significant b ts), c.length ≤ b.chunkLength :=
      fun _ => length_le_of_mem_significant
    have chunked := readChunks_eq b fit []
    simp only [flatten_chunks, Digits.value_nil, Nat.zero_mul, Nat.zero_add] at chunked
    have value := chunked.trans (readTokens_significant b ts).symm
    cases hr : readChunks b (chunks b.chunkLength (significant b ts)) [] with
    | error e =>
      rw [hr] at value
      cases hvs : readTokens b ts with
      | error e' =>
        rw [hvs] at value
        cases value
        rfl
      | ok vs =>
        rw [hvs] at value
        cases value
    | ok ds =>
      rw [hr] at value
      cases hvs : readTokens b ts with
      | error e' =>
        rw [hvs] at value
        cases value
      | ok vs =>
        rw [hvs] at value
        refine congrArg Except.ok ?_
        rw [← Magnitude.ofNat_value]
        exact congrArg Magnitude.ofNat (Except.ok.inj value)

end Multiprecision.Numeral
