import Multiprecision.Proofs.Numeral.Expansion

/-! Numerals and digits are converted without overflow. Beside each function stands the same one with
    arithmetic that is checked: it gives nothing once a sum or a product does not fit in its word, or a
    word that is narrowed loses a bit that is set. The two agree on every input. A chunk fits in a digit
    because the value of its first tokens is below the power of the base that they span, and a two-digit
    quotient because the remainder above it is below the divisor. -/

namespace Multiprecision

/-! ### Checked arithmetic of digits -/

namespace Digit

/-- The digit of a number that has one. -/
def fit? (n : Nat) : Option Digit := if n < base then some (low n) else none

/-- A number of at most two digits. -/
def fitTwo? (n : Nat) : Option Nat := if n < base * base then some n else none

/-- The two-digit number `a * b + c + d`, each step checked, and its high digit. -/
def mulAdd? (a b c d : Digit) : Option (Digit × Digit) :=
  (fitTwo? (a.toNat * b.toNat)).bind fun product =>
  (fitTwo? (product + c.toNat)).bind fun sum =>
  (fitTwo? (sum + d.toNat)).bind fun n =>
  (fit? (n / base)).map fun hi => (hi, low n)

/-- The quotient and the remainder of two digits by one that is not zero, each in a digit. -/
def divMod? (hi lo m : Digit) : Option (Digit × Digit) :=
  if m = 0 then none
  else (fitTwo? (join hi lo)).bind fun n =>
    (fit? (n / m.toNat)).bind fun q => (fit? (n % m.toNat)).map fun r => (q, r)

theorem fit?_of_lt {n : Nat} (h : n < base) : fit? n = some (low n) := if_pos h

theorem fitTwo?_of_lt {n : Nat} (h : n < base * base) : fitTwo? n = some n := if_pos h

/-- A product with two addends needs no check. -/
theorem mulAdd?_eq (a b c d : Digit) : mulAdd? a b c d = some (mulAdd a b c d) := by
  have whole := mul_add_lt a b c d
  have product : a.toNat * b.toNat < base * base := by omega
  have sum : a.toNat * b.toNat + c.toNat < base * base := by omega
  rw [mulAdd?, fitTwo?_of_lt product, Option.bind_some, fitTwo?_of_lt sum, Option.bind_some,
    fitTwo?_of_lt whole, Option.bind_some, fit?_of_lt (Nat.div_lt_of_lt_mul whole)]
  rfl

/-- A remainder below the divisor leaves a quotient of one digit. -/
theorem divMod?_eq {hi lo m : Digit} (lt : hi.toNat < m.toNat) :
    divMod? hi lo m = some (low (join hi lo / m.toNat), low (join hi lo % m.toNat)) := by
  have small : join hi lo < m.toNat * base := join_lt lt
  have fits := toNat_lt_base m
  have nonzero : m ≠ 0 := by
    rintro rfl
    exact absurd lt (Nat.not_lt_zero _)
  have rem : join hi lo % m.toNat < m.toNat := Nat.mod_lt _ (toNat_pos nonzero)
  have whole : join hi lo < base * base := Nat.lt_of_lt_of_le small (Nat.mul_le_mul_right _ fits.le)
  rw [divMod?, if_neg nonzero, fitTwo?_of_lt whole, Option.bind_some,
    fit?_of_lt (Nat.div_lt_of_lt_mul small), Option.bind_some, fit?_of_lt (rem.trans fits)]
  rfl

end Digit

/-! ### Division by a digit -/

namespace Digits

/-- The quotient digits and the remainder of a division by a digit, each step checked. -/
def divideByDigit? (m : Digit) : Digits → Option (Digits × Digit)
  | [] => some ([], 0)
  | d :: ds =>
    (divideByDigit? m ds).bind fun above =>
      (Digit.divMod? above.2 d m).map fun x => (x.1 :: above.1, x.2)

/-- A division by a digit that loses nothing: the quotient in normal form, the remainder, and every
    quotient of two digits, the remainder of the places above over the digit of a place. -/
structure ExactQuotient (m : Digit) (ds : Digits) : Prop where
  quotient : value (normalize (divideByDigit m ds).1) = value ds / m.toNat
  normal : Normal (normalize (divideByDigit m ds).1)
  remainder : (divideByDigit m ds).2.toNat = value ds % m.toNat
  carried : ∀ low d high, ds = low ++ d :: high →
    (divideByDigit m high).2.toNat < m.toNat ∧
      Digit.join (divideByDigit m high).2 d / m.toNat < Digit.base
  checked : divideByDigit? m ds = some (divideByDigit m ds)

variable {m : Digit}

theorem divideByDigit?_eq (pos : 0 < m.toNat) (ds : Digits) :
    divideByDigit? m ds = some (divideByDigit m ds) := by
  induction ds with
  | nil => rfl
  | cons d ds ih =>
    rw [divideByDigit?, ih, Option.bind_some, Digit.divMod?_eq (divideByDigit_law pos ds).2]
    rfl

theorem exactQuotient (nonzero : m ≠ 0) (ds : Digits) : ExactQuotient m ds := by
  have pos := Digit.toNat_pos nonzero
  obtain ⟨law, lt⟩ := divideByDigit_law pos ds
  rw [Nat.add_comm, Nat.mul_comm] at law
  obtain ⟨quotient, remainder⟩ := (Nat.div_mod_unique pos).2 ⟨law.symm, lt⟩
  exact {
    quotient := by rw [value_normalize, quotient]
    normal := normal_normalize _
    remainder := remainder.symm
    carried := by
      rintro low d high -
      have above := (divideByDigit_law pos high).2
      exact ⟨above, Nat.div_lt_of_lt_mul (Digit.join_lt above)⟩
    checked := divideByDigit?_eq pos ds }

end Digits

namespace Numeral

/-! ### Checked reading -/

/-- The value of a chunk after the value `v`, each product and each sum checked. -/
def readChunk? (b : Base) : List UInt8 → Digit → Option (Except Error Digit)
  | [], v => some (.ok v)
  | t :: ts, v =>
    match readToken b t with
    | .ok x =>
      (Digit.fit? (v.toNat * b.digit.toNat)).bind fun product =>
      (Digit.fit? (product.toNat + (Digit.low x).toNat)).bind fun next => readChunk? b ts next
    | .error e => some (.error e)

/-- The power of the base that a chunk spans, checked. -/
def spanned? (b : Base) (chunk : List UInt8) : Option Digit :=
  if chunk.length = b.chunkLength then some b.chunkPower else Digit.fit? (b.power chunk.length)

/-- The digits of `ds * m + carry`, each step checked. -/
def multiplyAdd? (m : Digit) : Digits → Digit → Option Digits
  | [], carry => some (if carry = 0 then [] else [carry])
  | d :: ds, carry =>
    (Digit.mulAdd? d m carry 0).bind fun x => (multiplyAdd? m ds x.1).map (x.2 :: ·)

/-- The digits after the chunks that are left, each step checked. -/
def readChunks? (b : Base) : List (List UInt8) → Digits → Option (Except Error Digits)
  | [], ds => some (.ok ds)
  | c :: cs, ds =>
    (readChunk? b c 0).bind fun
      | .ok v =>
        (spanned? b c).bind fun m => (multiplyAdd? m ds v).bind fun ds => readChunks? b cs ds
      | .error e => some (.error e)

/-- The magnitude of a numeral in a supported base, each step checked. -/
def readIn? (b : Base) (tokens : List UInt8) : Option (Except Error Magnitude) :=
  if tokens.isEmpty then some (.error .emptyNumeral)
  else (readChunks? b (chunks b.chunkLength (significant b tokens)) []).map fun ds =>
    ds.map Magnitude.ofDigits

/-- The magnitude of a numeral in a base, each step checked. -/
def read? (base : Nat) (tokens : List UInt8) : Option (Except Error Magnitude) :=
  match Base.ofNat base with
  | .ok b => readIn? b tokens
  | .error e => some (.error e)

section Reading

variable {b : Base} {ts chunk : List UInt8} {v : Digit}

/-- A chunk that fits in a digit needs no check. -/
theorem readChunk?_eq (fits : (v.toNat + 1) * b.toNat ^ ts.length ≤ Digit.base) :
    readChunk? b ts v = some (readChunk b ts v) := by
  induction ts generalizing v with
  | nil => rfl
  | cons t ts ih =>
    rw [readChunk?, readChunk]
    cases hx : readToken b t with
    | error e => rfl
    | ok x =>
      obtain ⟨value, after⟩ := toNat_next b (readToken_lt hx) fits
      have lt := Digit.toNat_lt_base (v * b.digit + Digit.low x)
      rw [value] at lt
      have token : (Digit.low x).toNat = x := Digit.toNat_low_of_lt (by omega)
      have product : v.toNat * b.toNat < Digit.base := by omega
      have next : Digit.low (v.toNat * b.toNat + x) = v * b.digit + Digit.low x := by
        rw [← UInt64.toNat_inj, value, Digit.toNat_low_of_lt lt]
      dsimp only
      rw [Base.toNat_digit, Digit.fit?_of_lt product, Option.bind_some, Digit.toNat_low_of_lt product,
        token, Digit.fit?_of_lt lt, Option.bind_some, next]
      exact ih (by rw [value]; exact after)

/-- One chunk of twenty nines overflows: nineteen fit in a digit, but not ten times as much. -/
example : readChunk? Base.decimal (List.replicate 20 '9'.toUInt8) 0 = none := by rfl

theorem power_lt (le : chunk.length ≤ b.chunkLength) : b.toNat ^ chunk.length < Digit.base := by
  rw [← (toNat_spanned b le).1]
  exact Digit.toNat_lt_base _

theorem spanned?_eq (le : chunk.length ≤ b.chunkLength) : spanned? b chunk = some (spanned b chunk) := by
  rw [spanned?, spanned]
  split
  · rfl
  · exact Digit.fit?_of_lt (power_lt le)

/-- Multiplication by a digit needs no check, whatever is added. -/
theorem multiplyAdd?_eq (m : Digit) (ds : Digits) (carry : Digit) :
    multiplyAdd? m ds carry = some (multiplyAdd m ds carry) := by
  induction ds generalizing carry with
  | nil => rfl
  | cons d ds ih =>
    rw [multiplyAdd?, Digit.mulAdd?_eq, Option.bind_some, ih]
    rfl

theorem readChunks?_eq {cs : List (List UInt8)} (fit : ∀ c ∈ cs, c.length ≤ b.chunkLength) (ds : Digits) :
    readChunks? b cs ds = some (readChunks b cs ds) := by
  induction cs generalizing ds with
  | nil => rfl
  | cons c cs ih =>
    rw [List.forall_mem_cons] at fit
    rw [readChunks?, readChunks, readChunk?_eq (fits_of_length_le fit.1), Option.bind_some]
    cases readChunk b c 0 with
    | error e => rfl
    | ok v =>
      dsimp only
      rw [spanned?_eq fit.1, Option.bind_some, multiplyAdd?_eq, Option.bind_some]
      exact ih fit.2 _

/-- A numeral is read in the same way where each step is checked. -/
theorem read?_eq (base : Nat) (ts : List UInt8) : read? base ts = some (read base ts) := by
  rw [read?, read]
  cases Base.ofNat base with
  | error e => rfl
  | ok b =>
    change readIn? b ts = some (readIn b ts)
    rw [readIn?, readIn]
    split
    · rfl
    · rw [readChunks?_eq fun c => length_le_of_mem_significant]
      rfl

/-! ### One chunk -/

/-- A chunk that is read goes on from what its first tokens give. -/
theorem readChunk_append (ts us : List UInt8) (v : Digit) :
    readChunk b (ts ++ us) v = (readChunk b ts v).bind fun w => readChunk b us w := by
  induction ts generalizing v with
  | nil => rfl
  | cons t ts ih =>
    rw [List.cons_append, readChunk, readChunk]
    cases readToken b t with
    | error e => rfl
    | ok x => exact ih _

/-- The value of tokens is below the power of the base that they span. -/
theorem toNat_lt_of_readChunk (le : ts.length ≤ b.chunkLength) (read : readChunk b ts 0 = .ok v) :
    v.toNat < b.toNat ^ ts.length := by
  rw [readChunk_eq b (fits_of_length_le le)] at read
  obtain ⟨vs, tokens, rfl⟩ := Except.map_eq_ok_iff.1 read
  have lt := positional_lt (lt_of_mem_readTokens tokens)
  rw [length_readTokens tokens] at lt
  rw [UInt64.toNat_zero, Nat.zero_mul, Nat.zero_add, Digit.toNat_low_of_lt (lt.trans (power_lt le))]
  exact lt

/-- A chunk that loses nothing: its power, and the value after each of its tokens. -/
structure ExactChunk (b : Base) (chunk : List UInt8) : Prop where
  power : b.toNat ^ chunk.length < Digit.base
  spans : (spanned b chunk).toNat = b.toNat ^ chunk.length
  next : ∀ front t back v x, chunk = front ++ t :: back → readChunk b front 0 = .ok v →
    readToken b t = .ok x →
      v.toNat < b.toNat ^ front.length ∧ v.toNat * b.toNat + x < Digit.base ∧
        ∃ w, readChunk b (front ++ [t]) 0 = .ok w ∧ w.toNat = v.toNat * b.toNat + x

theorem exactChunk (le : chunk.length ≤ b.chunkLength) : ExactChunk b chunk where
  power := power_lt le
  spans := (toNat_spanned b le).1
  next := by
    rintro front t back v x rfl read token
    rw [List.length_append, List.length_cons] at le
    have small := toNat_lt_of_readChunk (by omega) read
    have fits : (v.toNat + 1) * b.toNat ^ (back.length + 1) ≤ Digit.base :=
      calc (v.toNat + 1) * b.toNat ^ (back.length + 1)
          ≤ b.toNat ^ front.length * b.toNat ^ (back.length + 1) := Nat.mul_le_mul_right _ small
        _ = b.toNat ^ (front ++ t :: back).length := by
          rw [← Nat.pow_add, List.length_append, List.length_cons]
        _ ≤ Digit.base := (power_lt (by rwa [List.length_append, List.length_cons])).le
    have value := (toNat_next b (readToken_lt token) fits).1
    refine ⟨small, ?_, v * b.digit + Digit.low x, ?_, value⟩
    · rw [← value]
      exact Digit.toNat_lt_base _
    · rw [readChunk_append, read]
      change readChunk b [t] v = _
      rw [readChunk, token]
      rfl

end Reading

/-! ### Multiplication of what is read -/

/-- A multiplication by a digit with a digit added that loses nothing. A digit more is needed exactly for a
    result that does not fit in the places there are. -/
structure ExactProduct (m : Digit) (ds : Digits) (carry : Digit) : Prop where
  value : Digits.value (multiplyAdd m ds carry) = Digits.value ds * m.toNat + carry.toNat
  length : (multiplyAdd m ds carry).length =
    if Digits.value ds * m.toNat + carry.toNat < Digits.weight ds.length then ds.length
    else ds.length + 1
  checked : multiplyAdd? m ds carry = some (multiplyAdd m ds carry)

/-- Each digit gives one, and the last carry one more if it is not zero. -/
theorem exists_multiplyAdd (m : Digit) (ds : Digits) (carry : Digit) :
    ∃ low : Digits, ∃ last : Digit, low.length = ds.length ∧
      multiplyAdd m ds carry = low ++ if last = 0 then [] else [last] := by
  induction ds generalizing carry with
  | nil => exact ⟨[], carry, rfl, rfl⟩
  | cons d ds ih =>
    obtain ⟨low, last, length, digits⟩ := ih (Digit.mulAdd d m carry 0).1
    refine ⟨(Digit.mulAdd d m carry 0).2 :: low, last, congrArg (· + 1) length, ?_⟩
    rw [multiplyAdd, List.cons_append, ← digits]

theorem exactProduct (m : Digit) (ds : Digits) (carry : Digit) : ExactProduct m ds carry where
  value := value_multiplyAdd m ds carry
  length := by
    obtain ⟨low, last, length, digits⟩ := exists_multiplyAdd m ds carry
    have lt := Digits.value_lt low
    rw [← value_multiplyAdd, digits, ← length]
    by_cases zero : last = 0
    · rw [if_pos zero, List.append_nil, if_pos lt]
    · have above : Digits.weight low.length ≤ Digits.weight low.length * last.toNat :=
        Nat.le_mul_of_pos_right _ (Digit.toNat_pos zero)
      have large : ¬Digits.value (low ++ [last]) < Digits.weight low.length := by
        rw [Digits.value_append, Digits.value_cons, Digits.value_nil, Nat.mul_zero, Nat.add_zero]
        omega
      rw [if_neg zero, if_neg large, List.length_append, List.length_singleton]
  checked := multiplyAdd?_eq m ds carry

/-! ### The chunks of a base -/

/-- The powers are raised until the next one does not fit, for no base has more powers in a digit than
    there are bits. -/
theorem base_le_raisePower (b : Base) (rounds p k : Nat) (h : p = b.toNat ^ k) (lt : p < Digit.base)
    (enough : Digit.bits < rounds + k) : Digit.base ≤ b.toNat ^ ((b.raisePower rounds p k).2 + 1) := by
  fun_induction Base.raisePower b rounds p k with
  | case1 p k =>
    have many : Digit.base ≤ b.toNat ^ k :=
      calc Digit.base = 2 ^ Digit.bits := by decide
        _ ≤ b.toNat ^ Digit.bits := Nat.pow_le_pow_left b.two_le _
        _ ≤ b.toNat ^ k := Nat.pow_le_pow_right b.pos (by omega)
    omega
  | case2 p k rounds next ih => exact ih (by rw [h, Nat.pow_succ]) next (by omega)
  | case3 p k rounds next =>
    rw [h, ← Nat.pow_succ] at next
    exact Nat.not_lt.1 next

/-- Chunks that are as long as they can be: their power is the largest one of the base that fits in a digit.
    They have fewer tokens than a digit has bits, so that their length fits in the word of an exponent. -/
structure ExactSpan (b : Base) : Prop where
  power : b.chunkPower.toNat = b.toNat ^ b.chunkLength
  largest : Digit.base ≤ b.toNat ^ (b.chunkLength + 1)
  short : b.chunkLength < Digit.bits
  nonzero : b.chunkPower ≠ 0

theorem exactSpan (b : Base) : ExactSpan b where
  power := b.toNat_chunkPower
  largest := by
    have fits : b.toNat < Digit.base := Nat.lt_of_le_of_lt b.le_greatest (by decide)
    exact base_le_raisePower b Digit.bits b.toNat 1 (Nat.pow_one _).symm fits (by decide)
  short := by
    have lt : 2 ^ b.chunkLength < 2 ^ Digit.bits :=
      calc 2 ^ b.chunkLength ≤ b.toNat ^ b.chunkLength := Nat.pow_le_pow_left b.two_le _
        _ = b.chunkPower.toNat := b.toNat_chunkPower.symm
        _ < 2 ^ Digit.bits := Digit.toNat_lt_base _
    exact (Nat.pow_lt_pow_iff_right (by decide)).1 lt
  nonzero := by
    intro zero
    have pos := b.chunkPower_pos
    rw [zero] at pos
    exact absurd pos (Nat.lt_irrefl 0)

/-! ### Both directions -/

/-- A value that is written fits in a byte. -/
theorem lt_of_mem_valuesIn (b : Base) (ds : Digits) : ∀ v ∈ valuesIn b ds, v < 256 := by
  intro v mem
  have below := (expansion_valuesIn b ds).below v mem
  have le : b.toNat ≤ 64 := b.le_greatest
  omega

/-- No arithmetic of the conversions overflows or cuts anything off, in any base, whatever the tokens and
    the digits: reading gives the same with each step checked, each chunk and each multiplication is exact,
    and so is each division by a digit other than zero, as the power of each base is. -/
theorem conversion_lossless :
    (∀ base ts, read? base ts = some (read base ts)) ∧
    (∀ b : Base, ExactSpan b ∧
      (∀ ts, ∀ chunk ∈ chunks b.chunkLength (significant b ts), ExactChunk b chunk) ∧
      ∀ ds, ∀ v ∈ valuesIn b ds, v < 256) ∧
    (∀ m ds carry, ExactProduct m ds carry) ∧
    ∀ m ds, m ≠ 0 → Digits.ExactQuotient m ds := by
  refine ⟨read?_eq, fun b => ⟨exactSpan b, ?_, lt_of_mem_valuesIn b⟩, exactProduct, ?_⟩
  · intro ts chunk mem
    exact exactChunk (length_le_of_mem_significant mem)
  · intro m ds nonzero
    exact Digits.exactQuotient nonzero ds

/-- Twenty nines begin with a chunk of nineteen, whose last nine is added to eighteen. The power that the
    chunk spans divides. -/
theorem conversion_lossless_nines :
    (List.replicate 19 '9'.toUInt8 ∈
        chunks Base.decimal.chunkLength (significant Base.decimal (List.replicate 20 '9'.toUInt8)) ∧
      ∃ w, readChunk Base.decimal (List.replicate 19 '9'.toUInt8) 0 = .ok w ∧
        w.toNat = 999999999999999999 * 10 + 9) ∧
    (9 ∈ valuesIn Base.decimal [9] ∧ 9 < 256) ∧
    (Base.decimal.chunkPower ≠ 0 ∧ Digits.ExactQuotient Base.decimal.chunkPower [0, 1]) := by
  obtain ⟨-, reading, -, division⟩ := conversion_lossless
  obtain ⟨span, chunk, byte⟩ := reading Base.decimal
  have length : Base.decimal.chunkLength = 19 := rfl
  have nonzero : significant Base.decimal (List.replicate 20 '9'.toUInt8) =
      List.replicate 20 '9'.toUInt8 := rfl
  have mem : List.replicate 19 '9'.toUInt8 ∈
      chunks Base.decimal.chunkLength (significant Base.decimal (List.replicate 20 '9'.toUInt8)) := by
    rw [length, nonzero, List.replicate_succ, chunks]
    exact List.mem_cons_self
  have nine : 9 ∈ valuesIn Base.decimal [9] := by
    rw [valuesIn_eq]
    decide
  have last := (chunk _ _ mem).next (List.replicate 18 '9'.toUInt8) '9'.toUInt8 [] 999999999999999999 9
    rfl rfl rfl
  exact ⟨⟨mem, last.2.2⟩, ⟨nine, byte _ 9 nine⟩, span.nonzero, division _ _ span.nonzero⟩

end Numeral

end Multiprecision
