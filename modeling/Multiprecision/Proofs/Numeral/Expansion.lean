import Multiprecision.Proofs.Numeral.Reading
import Multiprecision.Proofs.Numeral.Writing

/-! Expansions of a number in a base. A number has exactly one in each base from 2 to 64, and this is what
    digits of that number are written with, whatever zeros they carry at the top. -/

namespace Multiprecision.Numeral

/-- An expansion of a number in a base: one or more values below the base, the highest place first, with
    the number as their positional value. Nothing but zero itself begins with a zero. -/
structure Expansion (base n : Nat) (vs : List Nat) : Prop where
  nonempty : vs ≠ []
  below : ∀ v ∈ vs, v < base
  leading : vs.head? = some 0 → vs = [0]
  denotes : positional base vs = n

variable {b : Base} {n : Nat} {vs : List Nat}

/-- The values of an expansion, the lowest place first, are the places of the number. -/
theorem Expansion.reverse_eq (h : Expansion b.toNat n vs) (nonzero : vs.head? ≠ some 0) :
    vs.reverse = Nat.digits b.toNat n := by
  rw [← h.denotes, positional, Nat.digits_ofDigits b.toNat (one_lt_toNat b)]
  · intro v mem
    exact h.below v (List.mem_reverse.1 mem)
  · intro ne zero
    rw [List.getLast_reverse] at zero
    exact nonzero (zero ▸ List.head?_eq_some_head (h.nonempty))

/-- A number has one expansion: its places, the highest first, or one zero for zero. -/
theorem expansion_iff :
    Expansion b.toNat n vs ↔ vs = if n = 0 then [0] else (Nat.digits b.toNat n).reverse := by
  constructor
  · intro h
    by_cases zero : vs.head? = some 0
    · have alone := h.leading zero
      have value : n = 0 := by
        rw [← h.denotes, alone]
        exact Nat.ofDigits_singleton ..
      rw [alone, if_pos value]
    · have places := h.reverse_eq zero
      have nonzero : n ≠ 0 := by
        rintro rfl
        rw [Nat.digits_zero, List.reverse_eq_nil_iff] at places
        exact h.nonempty places
      rw [if_neg nonzero, ← places, List.reverse_reverse]
  · rintro rfl
    split
    · next zero =>
      refine ⟨List.cons_ne_nil _ _, ?_, fun _ => rfl, ?_⟩
      · exact List.forall_mem_singleton.2 b.pos
      · rw [zero]
        exact Nat.ofDigits_singleton ..
    · next nonzero =>
      have places : Nat.digits b.toNat n ≠ [] := Nat.digits_ne_nil_iff_ne_zero.2 nonzero
      refine ⟨mt List.reverse_eq_nil_iff.1 places, ?_, ?_, ?_⟩
      · intro v mem
        exact Nat.digits_lt_base (one_lt_toNat b) (List.mem_reverse.1 mem)
      · intro zero
        rw [List.head?_reverse, List.getLast?_eq_some_getLast places] at zero
        exact absurd (Option.some.inj zero) (Nat.getLast_digit_ne_zero b.toNat nonzero)
      · rw [positional, List.reverse_reverse, Nat.ofDigits_digits]

/-- Digits are written with the values of the one expansion of their number. -/
theorem expansion_valuesIn_iff (ds : Digits) :
    Expansion b.toNat (Digits.value ds) vs ↔ vs = valuesIn b ds := by
  rw [expansion_iff, valuesIn_eq]

theorem expansion_valuesIn (b : Base) (ds : Digits) :
    Expansion b.toNat (Digits.value ds) (valuesIn b ds) :=
  (expansion_valuesIn_iff ds).2 rfl

/-- Digits are written with the values of their number's only expansion in each base from 2 to 64; any other
    base is refused as a wrong argument, whatever the digits. -/
theorem written_expansion (ds : Digits) :
    (∀ b : Base, ∃ vs, values b.toNat ds = .ok vs ∧
      ∀ us, Expansion b.toNat (Digits.value ds) us ↔ us = vs) ∧
    (∀ base e, values base ds = .error e ↔
      (base < leastBase ∨ greatestBase < base) ∧ e = .unsupportedBase base) ∧
    ∀ base, (Error.unsupportedBase base).isInvalidArgument = true := by
  refine ⟨?_, ?_, fun _ => rfl⟩
  · intro b
    refine ⟨valuesIn b ds, ?_, fun _ => expansion_valuesIn_iff ds⟩
    rw [values, b.ofNat_toNat]
    rfl
  · intro base e
    rw [values, Except.map_eq_error_iff, Base.ofNat_eq_error_iff]

end Multiprecision.Numeral
