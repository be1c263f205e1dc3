import Multiprecision.Digits.Product
import Multiprecision.Power
import Multiprecision.Proofs.Digits.Order
import Multiprecision.Proofs.Wide

/-! The product of two lists of digits is exact. Each row recomposes with what it carries out of the top.
    No row carries anything out, because the places a row is added to hold less than the weight of the
    other factor before it: dropping the lowest place of a row's sum restores that bound. Row by row, and
    step by step in a row, the same bound is read off the rows before it. -/

namespace Multiprecision.Digits

theorem length_addDigit (ds : Digits) (c : Digit) : (addDigit ds c).1.length = ds.length := by
  fun_induction addDigit ds c <;> simp_all

theorem addDigit_law (ds : Digits) (c : Digit) :
    value (addDigit ds c).1 + weight ds.length * (addDigit ds c).2.toNat = value ds + c.toNat := by
  fun_induction addDigit ds c with
  | case1 c => simp
  | case2 d ds => simp
  | case3 d ds c _ s b h rest t hr ih =>
    have law := Digit.addCarry_law d c false
    rw [h] at law
    rw [hr, Digit.toNat_ofBool] at ih
    simp only [value_cons, List.length_cons, weight_succ, Nat.mul_assoc]
    generalize weight ds.length * t.toNat = u at ih ⊢
    simp only [Bool.toNat_false, Digit.base] at law ih ⊢
    omega

theorem length_addRow (a : Digit) (bs acc : Digits) (c : Digit) :
    (addRow a bs acc c).1.length = acc.length := by
  fun_induction addRow a bs acc c <;> simp_all [length_addDigit]

theorem length_row (a : Digit) (bs acc : Digits) :
    (if a = 0 then acc else (addRow a bs acc 0).1).length = acc.length := by
  split <;> simp [length_addRow]

/-- A row, with what it carries out of the top, recomposes to the exact sum. -/
theorem addRow_law (a : Digit) {bs acc : Digits} (c : Digit) (h : bs.length ≤ acc.length) :
    value (addRow a bs acc c).1 + weight acc.length * (addRow a bs acc c).2.toNat =
      value acc + a.toNat * value bs + c.toNat := by
  fun_induction addRow a bs acc c with
  | case1 acc c => simpa using addDigit_law acc c
  | case2 b bs c => simp at h
  | case3 b bs r acc c hi lo hm rest t hr ih =>
    have law := Digit.mulAdd_law a b r c
    have ih := ih (by simpa using h)
    rw [hm] at law
    rw [hr] at ih
    simp only [value_cons, List.length_cons, weight_succ, Nat.mul_assoc, Nat.mul_add,
      Nat.mul_left_comm a.toNat]
    generalize weight acc.length * t.toNat = u at ih ⊢
    generalize a.toNat * value bs = p at ih ⊢
    simp only [Digit.base] at law ih ⊢
    omega

/-- The sum of a row is below the weight of one place more than the other factor has. -/
theorem row_lt (a : Digit) {bs : Digits} {n : Nat} (lt : n < weight bs.length) :
    n + a.toNat * value bs < weight (bs.length + 1) := by
  have row : a.toNat * value bs ≤ a.toNat * weight bs.length :=
    Nat.mul_le_mul_left _ (Nat.le_of_lt (value_lt bs))
  have digit : (a.toNat + 1) * weight bs.length ≤ Digit.base * weight bs.length :=
    Nat.mul_le_mul_right _ (Digit.toNat_lt_base a)
  rw [Nat.add_mul, Nat.one_mul] at digit
  rw [weight_succ]
  omega

/-- What a row adds to fits in the places of the row: nothing is carried out of the top. -/
theorem addRow_carry {a : Digit} {bs acc : Digits} (h : bs.length < acc.length)
    (lt : value acc < weight bs.length) : (addRow a bs acc 0).2 = 0 := by
  have law := addRow_law a 0 (Nat.le_of_lt h)
  have mono : weight (bs.length + 1) ≤ weight acc.length := weight_mono h
  have fits := row_lt a lt
  rw [UInt64.toNat_zero, Nat.add_zero] at law
  apply UInt64.toNat_inj.1
  apply Nat.eq_zero_of_not_pos
  intro pos
  have top := Nat.le_mul_of_pos_right (weight acc.length) pos
  omega

theorem value_addRow {a : Digit} {bs acc : Digits} (h : bs.length < acc.length)
    (lt : value acc < weight bs.length) :
    value (addRow a bs acc 0).1 = value acc + a.toNat * value bs := by
  have law := addRow_law a 0 (Nat.le_of_lt h)
  rwa [addRow_carry h lt, UInt64.toNat_zero, Nat.mul_zero, Nat.add_zero, Nat.add_zero] at law

/-- The rows add the product, when the places hold less than the weight of the other factor. -/
theorem value_addRows (as bs : Digits) {acc : Digits} (len : as.length + bs.length ≤ acc.length)
    (lt : value acc < weight bs.length) :
    value (addRows as bs acc) = value acc + value as * value bs := by
  induction as generalizing acc with
  | nil => simp [addRows]
  | cons a as ih =>
    rw [List.length_cons] at len
    -- a row that is left out adds nothing either
    have row : value (if a = 0 then acc else (addRow a bs acc 0).1) =
        value acc + a.toNat * value bs := by
      split
      · next z => simp [z]
      · exact value_addRow (by omega) lt
    have rowLen := length_row a bs acc
    simp only [addRows]
    generalize (if a = 0 then acc else (addRow a bs acc 0).1) = sum at row rowLen ⊢
    cases sum with
    | nil => simp at rowLen; omega
    | cons r rest =>
      simp only [List.length_cons, value_cons] at row rowLen ⊢
      have bound : value rest < weight bs.length := by
        have fits := row_lt a lt
        rw [weight_succ] at fits
        refine Nat.lt_of_mul_lt_mul_left (a := Digit.base) ?_
        omega
      rw [ih (by omega) bound, Nat.add_mul, Nat.mul_add, Nat.mul_assoc]
      omega

@[simp] theorem toNat_multiply (as bs : Digits) :
    (multiply as bs).toNat = value as * value bs := by
  simp only [multiply, Bool.or_eq_true, List.isEmpty_iff]
  split
  · next h =>
    rcases h with h | h
    · rw [← value_trim as, h]
      simp
    · rw [← value_trim bs, h]
      simp
  · rw [Magnitude.toNat_ofDigits, value_addRows _ _ (by simp)
      (by rw [value_replicate_zero]; exact weight_pos _)]
    simp

@[simp] theorem toNat_multiplyWide (as : Digits) (w : Wide) :
    (multiplyWide as w).toNat = value as * w.toNat := by
  rw [multiplyWide, toNat_multiply, Wide.value_digits]

/-! ### The steps of a row -/

/-- The carry into step `j` of a row. -/
def rowCarry (a : Digit) (bs acc : Digits) (j : Nat) : Digit := (addRow a (bs.take j) (acc.take j) 0).2

/-- A row over the places of two lists one above the other goes on with the carry of the lower one. -/
theorem addRow_append (a : Digit) {bs acc : Digits} (bs' acc' : Digits) (c : Digit)
    (len : bs.length = acc.length) :
    addRow a (bs ++ bs') (acc ++ acc') c =
      ((addRow a bs acc c).1 ++ (addRow a bs' acc' (addRow a bs acc c).2).1,
        (addRow a bs' acc' (addRow a bs acc c).2).2) := by
  fun_induction addRow a bs acc c with
  | case1 acc c =>
    obtain rfl := List.eq_nil_of_length_eq_zero len.symm
    simp [addDigit]
  | case2 b bs c => simp at len
  | case3 b bs r acc c hi lo hm rest t hr ih =>
    have ih := ih (by simpa using len)
    rw [hr] at ih
    simp [addRow, hm, ih]

/-- A step of a row gives the digit in its place and the carry into the next step. -/
theorem mulAdd_rowCarry (a : Digit) {bs acc : Digits} {j : Nat} (hb : j < bs.length)
    (ha : j < acc.length) :
    Digit.mulAdd a bs[j] acc[j] (rowCarry a bs acc j) =
      (rowCarry a bs acc (j + 1), (addRow a bs acc 0).1.getD j 0) := by
  -- the row is cut below place `j`, where it has taken as many digits from the one list as from the other
  have here : (bs.take j).length = (acc.take j).length := by
    simp only [List.length_take]
    omega
  have len : (addRow a (bs.take j) (acc.take j) 0).1.length = j := by
    rw [length_addRow, List.length_take]
    omega
  have next : rowCarry a bs acc (j + 1) = (Digit.mulAdd a bs[j] acc[j] (rowCarry a bs acc j)).1 := by
    rw [rowCarry, List.take_add_one, List.take_add_one, List.getElem?_eq_getElem hb,
      List.getElem?_eq_getElem ha, addRow_append a _ _ 0 here]
    rfl
  have digit : (addRow a bs acc 0).1.getD j 0 =
      (Digit.mulAdd a bs[j] acc[j] (rowCarry a bs acc j)).2 := by
    have row := addRow_append a (bs.drop j) (acc.drop j) 0 here
    rw [List.take_append_drop, List.take_append_drop, List.drop_eq_getElem_cons hb,
      List.drop_eq_getElem_cons ha] at row
    rw [row, List.getD_eq_getElem?_getD, List.getElem?_append_right (Nat.le_of_eq len), len,
      Nat.sub_self]
    rfl
  rw [next, digit]

/-! ### The rows of a product -/

@[simp] theorem length_addRows (as bs acc : Digits) : (addRows as bs acc).length = acc.length := by
  induction as generalizing acc with
  | nil => rfl
  | cons a as ih =>
    rw [addRows, ← length_row a bs acc]
    split
    · next h => rw [h]
    · next h => rw [h, List.length_cons, ih, List.length_cons]

/-- The rows of further digits go on above the places that the rows before them have left. -/
theorem addRows_append (as as' bs acc : Digits) :
    addRows (as ++ as') bs acc =
      (addRows as bs acc).take as.length ++ addRows as' bs ((addRows as bs acc).drop as.length) := by
  induction as generalizing acc with
  | nil => rfl
  | cons a as ih =>
    rw [List.cons_append, addRows, addRows]
    split
    · have none := length_addRows as' bs []
      simpa using (List.eq_nil_of_length_eq_zero none).symm
    · next r rest h => rw [ih rest]; rfl

theorem addRows_singleton (a : Digit) (bs acc : Digits) :
    addRows [a] bs acc = if a = 0 then acc else (addRow a bs acc 0).1 := by
  rw [addRows]
  split
  · next h => exact h.symm
  · next h => rw [h, addRows]

/-- The places of the product after the rows of the first `i` digits. -/
def placesAfter (as bs : Digits) (i : Nat) : Digits :=
  addRows (as.take i) bs (List.replicate (as.length + bs.length) 0)

@[simp] theorem length_placesAfter (as bs : Digits) (i : Nat) :
    (placesAfter as bs i).length = as.length + bs.length := by
  rw [placesAfter, length_addRows, List.length_replicate]

/-- After some rows the places hold the product by the digits of these rows. -/
theorem value_placesAfter (as bs : Digits) (i : Nat) :
    value (placesAfter as bs i) = value (as.take i) * value bs := by
  rw [placesAfter, value_addRows, value_replicate_zero, Nat.zero_add]
  · simp only [List.length_take, List.length_replicate]
    omega
  · rw [value_replicate_zero]
    exact weight_pos _

/-- The places that a row is added to. -/
def placesOf (as bs : Digits) (i : Nat) : Digits := (placesAfter as bs i).drop i

/-- A row is added to places that hold less than the weight of the other factor. -/
theorem value_placesOf_lt (as bs : Digits) (i : Nat) :
    value (placesOf as bs i) < weight bs.length := by
  rw [placesOf, value_drop, value_placesAfter]
  exact Nat.div_lt_of_lt_mul (Nat.mul_lt_mul'' (value_take_lt as i) (value_lt bs))

/-- A row takes the places below it as they are and is added to the others; a zero adds nothing. -/
theorem placesAfter_succ {as : Digits} (bs : Digits) {i : Nat} (h : i < as.length) :
    placesAfter as bs (i + 1) = (placesAfter as bs i).take i ++
      if as[i] = 0 then placesOf as bs i else (addRow as[i] bs (placesOf as bs i) 0).1 := by
  have len : (as.take i).length = i := List.length_take_of_le (Nat.le_of_lt h)
  rw [placesAfter, List.take_add_one, List.getElem?_eq_getElem h, addRows_append, len,
    Option.toList_some, addRows_singleton]
  rfl

/-- A row that loses nothing: each of its steps is one product with two addends that fits in two digits,
    and nothing is carried out of its places, which are more than the other factor has. -/
structure ExactRow (a : Digit) (bs acc : Digits) : Prop where
  longer : bs.length < acc.length
  steps : ∀ j (hb : j < bs.length) (ha : j < acc.length),
    Digit.mulAdd a bs[j] acc[j] (rowCarry a bs acc j) =
      (rowCarry a bs acc (j + 1), (addRow a bs acc 0).1.getD j 0)
  fits : ∀ j (hb : j < bs.length) (ha : j < acc.length),
    a.toNat * bs[j].toNat + acc[j].toNat + (rowCarry a bs acc j).toNat < twoTo 128
  carried : (addRow a bs acc 0).2 = 0

/-- The rows of a product, from places that are all zero to its digits, and each of them exact. -/
structure ExactRows (as bs : Digits) : Prop where
  first : placesAfter as bs 0 = List.replicate (as.length + bs.length) 0
  last : placesAfter as bs as.length = addRows as bs (List.replicate (as.length + bs.length) 0)
  next : ∀ i (h : i < as.length), placesAfter as bs (i + 1) = (placesAfter as bs i).take i ++
    if as[i] = 0 then placesOf as bs i else (addRow as[i] bs (placesOf as bs i) 0).1
  exact : ∀ i (h : i < as.length), ExactRow as[i] bs (placesOf as bs i)

theorem exactRow (a : Digit) {bs acc : Digits} (longer : bs.length < acc.length)
    (lt : value acc < weight bs.length) : ExactRow a bs acc where
  longer := longer
  steps := fun _ hb ha => mulAdd_rowCarry a hb ha
  fits := by
    intro j hb ha
    exact Nat.lt_of_lt_of_eq (Digit.mul_add_lt a bs[j] acc[j] (rowCarry a bs acc j)) (by decide)
  carried := addRow_carry longer lt

theorem exactRows (as bs : Digits) : ExactRows as bs where
  first := rfl
  last := by rw [placesAfter, List.take_length]
  next := fun _ h => placesAfter_succ bs h
  exact := by
    intro i h
    refine exactRow as[i] ?_ (value_placesOf_lt as bs i)
    rw [placesOf, List.length_drop, length_placesAfter]
    omega

/-- A product is exact, whatever zeros the factors hold and wherever. No row of any two lists carries
    anything out of the top or takes a step that needs more than two digits. -/
theorem product_exact (as bs : Digits) :
    Normal (multiply as bs).digits ∧ value (multiply as bs).digits = value as * value bs ∧
      (∀ w : Wide, Normal (multiplyWide as w).digits ∧
        value (multiplyWide as w).digits = value as * w.toNat) ∧
      ExactRows as bs := by
  refine ⟨(multiply as bs).normal, toNat_multiply as bs, ?_, exactRows as bs⟩
  intro w
  exact ⟨(multiplyWide as w).normal, toNat_multiplyWide as w⟩

end Multiprecision.Digits
