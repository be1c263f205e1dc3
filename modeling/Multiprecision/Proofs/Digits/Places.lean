import Multiprecision.Digits

/-! Places of digits: what a part of a list denotes. The digits below a place are the remainder of the
    value by the weight of that place, and the digits from it on are the quotient. -/

namespace Multiprecision.Digits

/-! ### Weights -/

theorem base_pos : 0 < Digit.base := by decide

theorem weight_pos (n : Nat) : 0 < weight n := Nat.pow_pos base_pos

@[simp] theorem weight_one : weight 1 = Digit.base := rfl

theorem weight_add (m n : Nat) : weight (m + n) = weight m * weight n := Nat.pow_add ..

/-! ### Parts of a list -/

@[simp] theorem value_replicate_zero (n : Nat) : value (List.replicate n 0) = 0 := by
  induction n with
  | zero => rfl
  | succ n ih => simp [List.replicate_succ, ih]

/-- A list denotes zero exactly when all of its digits are zero. -/
theorem value_eq_zero_iff (ds : Digits) : value ds = 0 ↔ ∀ d ∈ ds, d = 0 := by
  induction ds with
  | nil => simp
  | cons d ds ih =>
    have zero : d = 0 ↔ d.toNat = 0 := UInt64.toNat_inj.symm
    rw [List.forall_mem_cons, ← ih, zero, value_cons]
    simp only [Digit.base]
    omega

/-- A list of `n + k` digits is cut after the first `n`. -/
theorem exists_append_of_length {ds : Digits} {n k : Nat} (len : ds.length = n + k) :
    ∃ low high, low.length = n ∧ high.length = k ∧ ds = low ++ high := by
  refine ⟨ds.take n, ds.drop n, ?_, ?_, (List.take_append_drop n ds).symm⟩
  · rw [List.length_take]
    omega
  · rw [List.length_drop]
    omega

/-- A list is the part below a place and the part from it on. -/
theorem value_split (ds : Digits) (n : Nat) :
    value ds = value (ds.take n) + weight n * value (ds.drop n) := by
  rcases Nat.le_total n ds.length with h | h
  · calc value ds = value (ds.take n ++ ds.drop n) := by rw [List.take_append_drop]
      _ = value (ds.take n) + weight n * value (ds.drop n) := by
        rw [value_append, List.length_take, Nat.min_eq_left h]
  · rw [List.take_of_length_le h, List.drop_of_length_le h, value_nil, Nat.mul_zero, Nat.add_zero]

theorem value_take_lt (ds : Digits) (n : Nat) : value (ds.take n) < weight n :=
  Nat.lt_of_lt_of_le (value_lt _) (weight_mono (by simp only [List.length_take]; omega))

theorem value_take (ds : Digits) (n : Nat) : value (ds.take n) = value ds % weight n := by
  rw [value_split ds n, Nat.add_mul_mod_self_left, Nat.mod_eq_of_lt (value_take_lt ds n)]

theorem value_drop (ds : Digits) (n : Nat) : value (ds.drop n) = value ds / weight n := by
  rw [value_split ds n, Nat.add_mul_div_left _ _ (weight_pos n),
    Nat.div_eq_of_lt (value_take_lt ds n), Nat.zero_add]

theorem value_range (ds : Digits) (lo hi : Nat) :
    value (range ds lo hi) = value ds % weight hi / weight lo := by
  rw [range, value_drop, value_take]

/-- Exactly `n` digits hold the remainder of the value by the weight of the `n`th place. -/
theorem value_resize (ds : Digits) (n : Nat) : value (resize ds n) = value ds % weight n := by
  rw [resize, value_take, value_append, value_replicate_zero, Nat.mul_zero, Nat.add_zero]

@[simp] theorem length_resize (ds : Digits) (n : Nat) : (resize ds n).length = n := by
  simp only [resize, List.length_take, List.length_append, List.length_replicate]
  omega

/-- A list with no more digits than asked for only gains zeros. -/
theorem resize_of_length_le {ds : Digits} {n : Nat} (le : ds.length ≤ n) :
    resize ds n = ds ++ List.replicate (n - ds.length) 0 := by
  rw [resize, List.take_of_length_le]
  rw [List.length_append, List.length_replicate]
  omega

/-- The digits above a list are resized alone. -/
theorem resize_append (low ds : Digits) (n : Nat) :
    resize (low ++ ds) (low.length + n) = low ++ resize ds n := by
  rw [resize, List.length_append, Nat.add_sub_add_left, List.append_assoc,
    List.take_length_add_append, resize]

/-! ### Digits at the top -/

/-- A digit that is not zero at the top makes a list at least as large as the weight of its place. -/
theorem weight_le_value {ds : Digits} (ne : ds ≠ []) (top : ds.getLast? ≠ some 0) :
    weight (ds.length - 1) ≤ value ds := by
  induction ds with
  | nil => exact absurd rfl ne
  | cons d ds ih =>
    cases ds with
    | nil =>
      have hd : 1 ≤ d.toNat := Digit.toNat_pos (by simpa using top)
      simpa using hd
    | cons e es =>
      have rest := Nat.mul_le_mul_left Digit.base (ih (by simp) (by simpa using top))
      simp only [List.length_cons, Nat.add_sub_cancel] at rest ⊢
      rw [weight_succ, value_cons]
      omega

/-- The top bit of the top digit is set exactly when the value is at least half the next weight. -/
theorem base_le_two_mul_iff (low : Digits) (d : Digit) :
    Digit.base ≤ 2 * d.toNat ↔ weight (low ++ [d]).length ≤ 2 * value (low ++ [d]) := by
  have below := value_lt low
  rw [List.length_append, List.length_singleton, weight_succ, value_append, value_cons, value_nil,
    Nat.mul_zero, Nat.add_zero]
  constructor
  · intro high
    have scaled := Nat.mul_le_mul_right (weight low.length) high
    rw [Nat.mul_assoc, Nat.mul_comm d.toNat] at scaled
    omega
  · intro large
    have above : Digit.base * weight low.length < (2 * d.toNat + 2) * weight low.length := by
      rw [Nat.add_mul, Nat.mul_assoc, Nat.mul_comm d.toNat]
      omega
    have next := Nat.lt_of_mul_lt_mul_right above
    -- the base is even, so that it is not the odd number in between
    simp only [Digit.base] at next ⊢
    omega

/-- Digits without a zero at the top are as many as the value needs. -/
theorem length_le_iff {ds : Digits} (top : ds.getLast? ≠ some 0) (n : Nat) :
    ds.length ≤ n ↔ value ds < weight n := by
  constructor
  · intro h
    exact Nat.lt_of_lt_of_le (value_lt ds) (weight_mono h)
  · intro h
    by_cases ne : ds = []
    · rw [ne]
      exact Nat.zero_le n
    · apply Nat.le_of_not_lt
      intro lt
      have shorter : n ≤ ds.length - 1 := by omega
      have mono := weight_mono shorter
      have large := weight_le_value ne top
      omega

theorem length_trim_le_iff (ds : Digits) (n : Nat) : (trim ds).length ≤ n ↔ value ds < weight n := by
  rw [length_le_iff (getLast?_trim ds), value_trim]

end Multiprecision.Digits
