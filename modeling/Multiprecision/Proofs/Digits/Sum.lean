import Multiprecision.Digits.Sum
import Multiprecision.Proofs.Digits.Order
import Multiprecision.Proofs.Wide

/-! The sum of two lists of digits is exact, and it takes every digit of the longer list once. A carry
    into a place is what the places below it hold beyond the weight of the place; from a place above the
    shorter list that no carry reaches, the digits of the longer list stand in the sum as they are. -/

namespace Multiprecision.Digits

/-! ### The order of the operands -/

@[simp] theorem ripple_false (ds : Digits) : ripple ds false = ds := by cases ds <;> rfl

@[simp] theorem addCarrying_nil_right (as : Digits) (c : Bool) : addCarrying as [] c = ripple as c := by
  cases as <;> rfl

theorem addCarry_comm (a b : Digit) (c : Bool) : Digit.addCarry a b c = Digit.addCarry b a c := by
  have hab := Digit.addCarry_law a b c
  have hba := Digit.addCarry_law b a c
  have lt := Digit.toNat_lt_base (Digit.addCarry a b c).1
  have lt' := Digit.toNat_lt_base (Digit.addCarry b a c).1
  have inj : ∀ p q : Bool, p.toNat = q.toNat → p = q := by decide
  simp only [Digit.base] at hab hba lt lt'
  exact Prod.ext (UInt64.toNat_inj.1 (by omega)) (inj _ _ (by omega))

/-- The digits of a sum do not depend on the order of the operands, whichever is longer. -/
theorem addCarrying_comm (as bs : Digits) (c : Bool) : addCarrying as bs c = addCarrying bs as c := by
  fun_induction addCarrying as bs c with
  | case1 bs c => rw [addCarrying_nil_right]
  | case2 as c none => cases as <;> rfl
  | case3 a as b bs c s t h ih => rw [addCarrying, addCarry_comm b a, h, ih]

/-! ### Carries into a place -/

/-- The carry into a place: what the places below it hold is not below its weight. -/
def carryInto (as bs : Digits) (c : Bool) (place : Nat) : Bool :=
  decide (weight place ≤ value (as.take place) + value (bs.take place) + c.toNat)

theorem carryInto_zero (as bs : Digits) (c : Bool) : carryInto as bs c 0 = c := by
  cases c <;> simp [carryInto]

/-- The carry out of the lowest place is the carry into the places above it. -/
theorem carryInto_of_law {as bs as' bs' : Digits} {c t : Bool} {s : Digit} {m place : Nat}
    (law : s.toNat + Digit.base * t.toNat = m)
    (sum : value (as'.take (place + 1)) + value (bs'.take (place + 1)) + c.toNat =
      m + Digit.base * (value (as.take place) + value (bs.take place))) :
    carryInto as' bs' c (place + 1) = carryInto as bs t place := by
  have lt := Digit.toNat_lt_base s
  rw [carryInto, carryInto, sum, ← law, weight_succ, decide_eq_decide]
  simp only [Digit.base] at lt ⊢
  omega

theorem carryInto_nil (as : Digits) : carryInto as [] false = fun _ => false := by
  funext place
  simp [carryInto, value_take_lt]

/-- A ripple leaves the digits of a list from any place on as they are, up to the carry into the place. -/
theorem exists_ripple_eq (ds : Digits) (c : Bool) {place : Nat} (le : place ≤ ds.length) :
    ∃ low, low.length = place ∧
      ripple ds c = low ++ ripple (ds.drop place) (carryInto ds [] c place) := by
  fun_induction ripple ds c generalizing place with
  | case1 ds =>
    refine ⟨ds.take place, List.length_take_of_le le, ?_⟩
    rw [carryInto_nil, ripple_false, List.take_append_drop]
  | case2 =>
    obtain rfl := Nat.le_zero.1 le
    exact ⟨[], rfl, rfl⟩
  | case3 d ds s c h ih =>
    cases place with
    | zero =>
      refine ⟨[], rfl, ?_⟩
      rw [carryInto_zero, List.drop_zero, ripple, h]
      rfl
    | succ place =>
      have law := Digit.addCarry_law d 0 true
      rw [h] at law
      have carry : carryInto (d :: ds) [] true (place + 1) = carryInto ds [] c place :=
        carryInto_of_law law (by simp; omega)
      obtain ⟨low, len, eq⟩ := ih (Nat.le_of_succ_le_succ le)
      refine ⟨s :: low, by rw [List.length_cons, len], ?_⟩
      rw [eq, carry]
      rfl

/-- A sum, from any place above the shorter list on, is the rest of the longer list plus the carry into
    the place, below it as many digits as there are places. -/
theorem exists_addCarrying_eq (as bs : Digits) (c : Bool) {place : Nat} (above : bs.length ≤ place)
    (le : place ≤ as.length) :
    ∃ low, low.length = place ∧
      addCarrying as bs c = low ++ ripple (as.drop place) (carryInto as bs c place) := by
  fun_induction addCarrying as bs c generalizing place with
  | case1 bs c =>
    obtain rfl := Nat.le_zero.1 le
    obtain rfl := List.eq_nil_of_length_eq_zero (Nat.le_zero.1 above)
    exact ⟨[], rfl, by rw [carryInto_zero]; rfl⟩
  | case2 as c _ =>
    -- above the shorter list the carry only ripples
    exact exists_ripple_eq as c le
  | case3 a as b bs c s t h ih =>
    cases place with
    | zero => simp at above
    | succ place =>
      have law := Digit.addCarry_law a b c
      rw [h] at law
      have carry : carryInto (a :: as) (b :: bs) c (place + 1) = carryInto as bs t place :=
        carryInto_of_law law (by simp [Nat.mul_add]; omega)
      obtain ⟨low, len, eq⟩ := ih (Nat.le_of_succ_le_succ above) (Nat.le_of_succ_le_succ le)
      refine ⟨s :: low, by rw [List.length_cons, len], ?_⟩
      rw [eq, carry]
      rfl

/-! ### Sums -/

@[simp] theorem toNat_addWide (as : Digits) (w : Wide) : (addWide as w).toNat = value as + w.toNat := by
  rw [addWide, toNat_add, Wide.value_digits]

/-- A sum is exact, in either order of the operands. Wherever the carry stops, the digits of the longer
    operand from there on are those of the sum, each once; a carry that never stops is one more digit. -/
theorem sum_exact (as bs : Digits) :
    Normal (add as bs).digits ∧ value (add as bs).digits = value as + value bs ∧
      add as bs = add bs as ∧
      (∀ w : Wide, Normal (addWide as w).digits ∧ value (addWide as w).digits = value as + w.toNat) ∧
      addCarrying as bs false = addCarrying bs as false ∧
      ∀ place, bs.length ≤ place → place ≤ as.length →
        ∃ low : Digits, low.length = place ∧
          addCarrying as bs false =
            low ++ if carryInto as bs false place then ripple (as.drop place) true
              else as.drop place := by
  have digits := addCarrying_comm as bs false
  refine ⟨(add as bs).normal, toNat_add as bs, congrArg Magnitude.ofDigits digits, ?_, digits, ?_⟩
  · intro w
    exact ⟨(addWide as w).normal, toNat_addWide as w⟩
  · intro place above le
    obtain ⟨low, len, eq⟩ := exists_addCarrying_eq as bs false above le
    refine ⟨low, len, ?_⟩
    cases h : carryInto as bs false place with
    | false => rw [eq, h, ripple_false]; rfl
    | true => rw [eq, h]; rfl

/-- A carry that runs through two digits and stops at the third. -/
theorem sum_exact_carry_stops :
    [1].length ≤ 3 ∧ 3 ≤ [Digit.max, Digit.max, 5, 9].length ∧
      ∃ low : Digits, low.length = 3 ∧
        addCarrying [Digit.max, Digit.max, 5, 9] [1] false = low ++ [9] := by
  obtain ⟨-, -, -, -, -, places⟩ := sum_exact [Digit.max, Digit.max, 5, 9] [1]
  have above : [1].length ≤ 3 := by decide
  have le : 3 ≤ [Digit.max, Digit.max, 5, 9].length := by decide
  have stops : carryInto [Digit.max, Digit.max, 5, 9] [1] false 3 = false := by decide
  obtain ⟨low, len, eq⟩ := places 3 above le
  rw [stops] at eq
  exact ⟨above, le, low, len, eq⟩

end Multiprecision.Digits
