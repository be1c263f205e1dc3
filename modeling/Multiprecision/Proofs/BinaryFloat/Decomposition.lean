import Multiprecision.Proofs.BinaryFloat.Digits
import Multiprecision.Proofs.Digits.Order

/-! The digits of a value, from the lowest up, by a loop that divides by their base until less than one is
    left. What a round must give is said for the number that it starts from, and a run of the loop is a
    finite chain of such rounds. Every finite value that is not below zero has a run, and its digits are
    those of the number without its fraction; any other value is refused. -/

namespace Multiprecision.BinaryFloat

variable {f : Format} {x : Scaled}

/-! ### One round -/

/-- A round on the number `n` that loses nothing: the remainder and the quotient by the base are not
    rounded, the digit is the remainder, and what is left is the quotient without its fraction. -/
structure ExactRound (f : Format) (x : Scaled) (n : Nat) : Prop where
  number : x.toRat = n
  remainder : (f.nearest (x.mod Digit.bits)).toRat = (n % Digit.base : Nat)
  quotient : (f.nearest (x.scale (-Digit.bits))).toRat = n / Digit.base
  digit : (lowestDigit f x).toNat = n % Digit.base
  left : (aboveLowest f x).toRat = (n / Digit.base : Nat)

theorem exactRound (natural : 0 ≤ x.exponent) (remainder : f.Exact (x.mod Digit.bits))
    (quotient : f.Exact (x.scale (-Digit.bits))) : ExactRound f x x.floor where
  number := Scaled.toRat_eq_floor natural
  remainder := by rw [remainder, Scaled.toRat_mod natural, twoTo_bits]
  quotient := by
    rw [quotient, Scaled.toRat_scale, Scaled.toRat_eq_floor natural, zpow_neg, zpow_natCast,
      ← cast_twoTo, twoTo_bits, div_eq_mul_inv]
  digit := toNat_lowestDigit natural remainder
  left := by
    rw [Scaled.toRat_eq_floor (exponent_aboveLowest f x), floor_aboveLowest natural quotient]

namespace ExactRound

variable {n : Nat} (round : ExactRound f x n)

include round

theorem floor_eq : x.floor = n := by
  rw [Scaled.floor_eq, round.number, Nat.floor_natCast]

theorem floor_left : (aboveLowest f x).floor = n / Digit.base := by
  rw [Scaled.floor_eq, round.left, Nat.floor_natCast]

/-- Less than one is left exactly when the number is a single digit. -/
theorem left_lt_one_iff : (aboveLowest f x).toRat < 1 ↔ n < Digit.base := by
  rw [round.left, Nat.cast_lt_one, Nat.div_eq_zero_iff_lt Digits.base_pos]

/-- The last digit is all of the number. -/
theorem toNat_last (done : (aboveLowest f x).toRat < 1) : (lowestDigit f x).toNat = n := by
  rw [round.digit, Nat.mod_eq_of_lt (round.left_lt_one_iff.1 done)]

end ExactRound

/-! ### Runs of the loop -/

/-- The runs of the loop from a number to its digits: exact rounds, the last of which leaves less than
    one. -/
inductive ExactLoop (f : Format) : Scaled → Digits → Prop
  | last {x : Scaled} {n : Nat} (round : ExactRound f x n) (done : (aboveLowest f x).toRat < 1) :
      ExactLoop f x [lowestDigit f x]
  | next {x : Scaled} {n : Nat} {ds : Digits} (round : ExactRound f x n)
      (more : 1 ≤ (aboveLowest f x).toRat) (rest : ExactLoop f (aboveLowest f x) ds) :
      ExactLoop f x (lowestDigit f x :: ds)

/-- Nothing but a fraction is left exactly when the number without it is zero. -/
theorem floor_eq_zero_iff (x : Scaled) : x.floor = 0 ↔ x.toRat < 1 := by
  rw [Scaled.floor_eq, Nat.floor_eq_zero]

/-- Exact rounds make a run, whose digits are the ones found. -/
theorem exactLoop_digitsFrom {rounds : Nat} (natural : 0 ≤ x.exponent) (exact : ExactRounds f rounds x) :
    ExactLoop f x (digitsFrom f rounds x) := by
  induction rounds generalizing x with
  | zero => exact exact.elim
  | succ rounds ih =>
    obtain ⟨remainder, quotient, -, rest⟩ := exact
    have round := exactRound natural remainder quotient
    rw [digitsFrom]
    split
    · next done => exact .last round ((floor_eq_zero_iff _).1 done)
    · next more =>
      refine .next round (not_lt.1 (mt (floor_eq_zero_iff _).2 more)) ?_
      exact ih (exponent_aboveLowest f x) (rest.resolve_left more)

namespace ExactLoop

variable {ds : Digits}

/-- A run takes as many rounds as it gives digits, and does not use any that it is allowed beyond. -/
theorem digitsFrom_eq (loop : ExactLoop f x ds) {rounds : Nat} (enough : ds.length ≤ rounds) :
    digitsFrom f rounds x = ds := by
  induction loop generalizing rounds with
  | last round done =>
    obtain ⟨k, rfl⟩ := Nat.exists_eq_add_of_le' enough
    exact congrArg (_ :: ·) (if_pos ((floor_eq_zero_iff _).2 done))
  | next round more rest ih =>
    obtain ⟨k, rfl⟩ := Nat.exists_eq_add_of_le' (Nat.le_of_add_left_le enough)
    have left := mt (floor_eq_zero_iff _).1 (not_lt.2 more)
    rw [digitsFrom, if_neg left, ih (Nat.le_of_succ_le_succ enough)]

/-- A run gives the digits of the number. -/
theorem value_eq (loop : ExactLoop f x ds) : Digits.value ds = x.floor := by
  induction loop with
  | last round done =>
    rw [Digits.value_cons, Digits.value_nil, Nat.mul_zero, Nat.add_zero, round.toNat_last done,
      round.floor_eq]
  | next round more rest ih =>
    rw [Digits.value_cons, ih, round.digit, round.floor_left, round.floor_eq, Nat.mod_add_div]

/-- A run from a number that is not below one does not end with a zero. -/
theorem getLast?_ne (loop : ExactLoop f x ds) (pos : 1 ≤ x.toRat) : ds.getLast? ≠ some 0 := by
  induction loop with
  | last round done =>
    rw [round.number, Nat.one_le_cast] at pos
    have digit := round.toNat_last done
    rw [List.getLast?_singleton, ne_eq, Option.some_inj]
    intro zero
    rw [zero, UInt64.toNat_zero] at digit
    omega
  | next round more rest ih =>
    cases rest <;> simpa using ih more

/-- The digits of a run are in normal form. -/
theorem normal (loop : ExactLoop f x ds) : Digits.Normal ds := by
  cases loop with
  | last round done => exact ⟨List.cons_ne_nil _ _, by simp⟩
  | next round more rest =>
    refine ⟨List.cons_ne_nil _ _, fun zero => absurd ?_ (rest.getLast?_ne more)⟩
    cases rest <;> simpa using zero

end ExactLoop

/-! ### Values -/

/-- The loop on the magnitude of a finite value ends, and what it gives is the magnitude as it is. -/
theorem exists_exactLoop (std : f.Standard) {m : Scaled} (h : f.Contains m) :
    ∃ d, magnitude f (.finite false m) = .ok d ∧ ExactLoop f m.trunc d.digits := by
  have loop := exactLoop_digitsFrom m.exponent_trunc (exactMagnitude std h false)
  refine ⟨⟨_, loop.normal⟩, ?_, loop⟩
  rw [magnitude, if_neg (by simp [isNegative])]
  exact congrArg _ (Magnitude.eq_of_toNat_eq (Magnitude.toNat_ofDigits _))

/-- What is not finite is refused as such, with either sign, and any other value only below zero. -/
theorem magnitude_eq_error_iff (f : Format) (x : BinaryFloat) (e : Error) :
    magnitude f x = .error e ↔
      (e = .notFinite ∧ (x = .nan ∨ ∃ s, x = .infinite s)) ∨
        (e = .negativeValue ∧ ∃ q, x.toRat? = some q ∧ q < 0) := by
  cases x with
  | nan => simp [magnitude, toRat?, eq_comm]
  | infinite s => simp [magnitude, toRat?, eq_comm]
  | finite s m =>
    obtain ⟨_, _, _, _, sign⟩ := exists_of_toRat? (x := .finite s m) rfl
    rw [magnitude]
    split
    · next negative => simp [toRat?, eq_comm, ← sign, negative]
    · next notNegative => simp [toRat?, eq_comm, ← sign, notNegative]

/-- The loop on a finite value that is not below zero ends, in any number of rounds from that of the
    digits on, and gives the digits of the number without its fraction; no step of it is rounded. Other
    values are refused, as not finite before all else. -/
theorem decomposition_exact (hf : f ∈ [Format.single, Format.double]) (bits : Nat) :
    (∀ q, (f.decode bits).toRat? = some q → 0 ≤ q →
      ∃ (negative : Bool) (m : Scaled) (d : Magnitude),
        f.decode bits = .finite negative m ∧ m.toRat = q ∧ magnitude f (f.decode bits) = .ok d ∧
          Digits.Normal d.digits ∧ Digits.value d.digits = ⌊q⌋₊ ∧ ExactLoop f m.trunc d.digits ∧
            ∀ rounds, d.length ≤ rounds → digitsFrom f rounds m.trunc = d.digits) ∧
      ∀ e, magnitude f (f.decode bits) = .error e ↔
        (e = .notFinite ∧ (f.decode bits = .nan ∨ ∃ s, f.decode bits = .infinite s)) ∨
          (e = .negativeValue ∧ ∃ q, (f.decode bits).toRat? = some q ∧ q < 0) := by
  have std := Format.standard hf
  refine ⟨?_, magnitude_eq_error_iff f (f.decode bits)⟩
  intro q finite nonneg
  obtain ⟨negative, m, value, number, sign⟩ := exists_of_toRat? finite
  rw [abs_of_nonneg nonneg] at number
  have contains := Format.contains_of_decode std value
  obtain ⟨d, made, loop⟩ := exists_exactLoop std contains
  have notNegative : ¬(f.decode bits).isNegative = true := mt sign.1 (not_lt.2 nonneg)
  refine ⟨negative, m, d, value, number, ?_, d.normal, ?_, loop, fun _ => loop.digitsFrom_eq⟩
  · rw [value] at notNegative ⊢
    rw [magnitude, if_neg notNegative]
    exact made
  · rw [loop.value_eq, Scaled.floor_trunc, Scaled.floor_eq, number]

/-- A mantissa that the loop takes apart into two digits. -/
theorem decomposition_exact_two_digits :
    (Format.double.decode 0x4740000000000001).toRat? = some ((2 ^ 52 + 1) * 2 ^ 65) ∧
      ∃ (m : Scaled) (d : Magnitude), magnitude .double (Format.double.decode 0x4740000000000001) = .ok d ∧
        Digits.value d.digits = (2 ^ 52 + 1) * 2 ^ 65 ∧ ExactLoop .double m.trunc d.digits := by
  have value : Format.double.decode 0x4740000000000001 = .finite false ⟨2 ^ 52 + 1, 65⟩ := by decide
  have number : (Format.double.decode 0x4740000000000001).toRat? =
      some (((2 ^ 52 + 1) * 2 ^ 65 : Nat) : ℚ) := by
    rw [value, toRat?, Scaled.toRat]
    norm_num
  obtain ⟨-, m, d, -, -, made, -, digits, loop, -⟩ :=
    (decomposition_exact (by decide) 0x4740000000000001).1 _ number (Nat.cast_nonneg _)
  rw [Nat.floor_natCast] at digits
  exact ⟨number.trans (by norm_num), m, d, made, digits, loop⟩

end Multiprecision.BinaryFloat
