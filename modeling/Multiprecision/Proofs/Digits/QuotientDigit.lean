import Multiprecision.Digits.LongDivision
import Multiprecision.Proofs.Digits.Order
import Mathlib.Data.List.Basic
import Mathlib.Tactic.Ring

/-! One quotient digit of long division. The refined estimate is the quotient of the three top digits of
    the window by the two top digits of the divisor, cut down to a digit. It is the true quotient or one
    above it, and it is one above exactly when taking the multiple of the divisor leaves a borrow; adding
    the divisor back then leaves the true remainder. -/

namespace Multiprecision.Digits

/-! ### The estimate -/

/-- The quotient of three digits by two, as a number. -/
def threeByTwo (n : Nat) (below top next : Digit) : Nat :=
  (n * Digit.base + below.toNat) / (top.toNat * Digit.base + next.toNat)

section Estimate

variable {top next below : Digit} {n : Nat}

/-- The test of the refinement fails exactly for the numbers up to the quotient of three digits by two. -/
theorem le_threeByTwo_iff (pos : 0 < top.toNat) {q r : Nat} (h : n = q * top.toNat + r) :
    q ≤ threeByTwo n below top next ↔ q * next.toNat ≤ r * Digit.base + below.toNat := by
  have den : 0 < top.toNat * Digit.base + next.toNat :=
    Nat.add_pos_left (Nat.mul_pos pos base_pos) _
  rw [threeByTwo, Nat.le_div_iff_mul_le den, h]
  have e₁ : q * (top.toNat * Digit.base + next.toNat) =
      q * top.toNat * Digit.base + q * next.toNat := by ring
  have e₂ : (q * top.toNat + r) * Digit.base = q * top.toNat * Digit.base + r * Digit.base := by ring
  omega

/-- No refinement is needed below the base once the remainder is too large for a digit. -/
theorem le_threeByTwo_of_base_le (pos : 0 < top.toNat) {q r : Nat} (h : n = q * top.toNat + r)
    (hr : Digit.base ≤ r) (hq : q < Digit.base) : q ≤ threeByTwo n below top next := by
  rw [le_threeByTwo_iff pos h]
  have hnext := Digit.toNat_lt_base next
  calc q * next.toNat ≤ Digit.base * Digit.base := Nat.mul_le_mul (by omega) (by omega)
    _ ≤ r * Digit.base := Nat.mul_le_mul_right _ hr
    _ ≤ r * Digit.base + below.toNat := Nat.le_add_right ..

/-- The refinement ends at the quotient of three digits by two, or at the largest digit. -/
theorem refineEstimate_eq (pos : 0 < top.toNat) (lt : n < top.toNat * Digit.base + Digit.base)
    {q r : Nat} (h : n = q * top.toNat + r) (hr : r < Digit.base)
    (le : min (Digit.base - 1) (threeByTwo n below top next) ≤ q) :
    refineEstimate top next below q r = min (Digit.base - 1) (threeByTwo n below top next) := by
  induction q generalizing r with
  | zero => exact (Nat.le_zero.1 le).symm
  | succ q ih =>
    have test : q + 1 ≤ threeByTwo n below top next ↔
        (q + 1) * next.toNat ≤ r * Digit.base + below.toNat := le_threeByTwo_iff pos h
    rw [refineEstimate, Digit.join, Digit.toNat_low_of_lt hr]
    have h' : n = q * top.toNat + (r + top.toNat) := by rw [h]; ring
    split
    · next rejected =>
      have le' : min (Digit.base - 1) (threeByTwo n below top next) ≤ q := by
        rcases rejected with big | low <;> omega
      split
      · next stop =>
        -- the base is not reached here: its multiple of the top digit leaves less than the base
        have hq : q < Digit.base := by
          apply Nat.lt_of_not_le
          intro big
          have large := Nat.mul_le_mul_right top.toNat big
          rw [Nat.mul_comm Digit.base] at large
          omega
        have led : q ≤ threeByTwo n below top next := le_threeByTwo_of_base_le pos h' stop hq
        omega
      · next go => exact ih h' (by omega) le'
    · next accepted =>
      have := test.2 (by omega)
      omega

theorem estimate_eq (pos : 0 < top.toNat) (low : Digits) (a b c : Digit) (ha : a.toNat ≤ top.toNat) :
    estimate top next (low ++ [c, b, a]) =
      min (Digit.base - 1) (threeByTwo (Digit.join a b) c top next) := by
  have three : topThree (low ++ [c, b, a]) = (a, b, c) := by simp [topThree]
  have hb := Digit.toNat_lt_base b
  have mono := Nat.mul_le_mul_right Digit.base ha
  have split := Nat.div_add_mod (Digit.join a b) top.toNat
  rw [estimate, three]
  refine refineEstimate_eq pos ?_ (by rw [Nat.mul_comm]; exact split.symm) ?_ ?_
  · simp only [Digit.join]
    omega
  · exact Nat.lt_trans (Nat.mod_lt _ pos) (Digit.toNat_lt_base top)
  · -- a quotient by two digits is at most the quotient by the higher one
    refine Nat.le_trans (Nat.min_le_right ..) ((Nat.le_div_iff_mul_le pos).2 ?_)
    have hc := Digit.toNat_lt_base c
    have le : threeByTwo (Digit.join a b) c top next * (top.toNat * Digit.base + next.toNat) ≤
        Digit.join a b * Digit.base + c.toNat := Nat.div_mul_le_self ..
    rw [Nat.mul_add, ← Nat.mul_assoc] at le
    refine Nat.le_of_lt_succ (Nat.lt_of_mul_lt_mul_right (a := Digit.base) ?_)
    rw [Nat.succ_mul]
    omega

end Estimate

/-- Numbers `u` and `v` that lead a window `w` and a divisor `d`, above places of one weight `p`, give an
    estimate that is the quotient or one more. -/
theorem div_le_estimate_le {w d u v p : Nat} (hd : v * p ≤ d) (hd' : d < (v + 1) * p)
    (hw : u * p ≤ w) (hw' : w < (u + 1) * p) (top : Digit.base * p ≤ d) (lt : w < d * Digit.base)
    (pos : 0 < v) :
    w / d ≤ min (Digit.base - 1) (u / v) ∧ min (Digit.base - 1) (u / v) ≤ w / d + 1 := by
  have dpos : 0 < d := by
    apply Nat.pos_of_ne_zero
    rintro rfl
    omega
  constructor
  · have small : w / d < Digit.base := Nat.div_lt_of_lt_mul lt
    have led : w / d ≤ u / v := by
      rw [Nat.le_div_iff_mul_le pos]
      refine Nat.le_of_lt_succ (Nat.lt_of_mul_lt_mul_right (a := p) ?_)
      calc w / d * v * p = w / d * (v * p) := Nat.mul_assoc ..
        _ ≤ w / d * d := Nat.mul_le_mul_left _ hd
        _ ≤ w := Nat.div_mul_le_self ..
        _ < (u + 1) * p := hw'
    omega
  · generalize he : min (Digit.base - 1) (u / v) = e
    have e_lt : e < Digit.base := by
      have : 0 < Digit.base := base_pos
      omega
    have e_le : e * v ≤ u := (Nat.le_div_iff_mul_le pos).1 (by omega)
    rcases e with _ | e
    · exact Nat.zero_le _
    · refine Nat.succ_le_succ ((Nat.le_div_iff_mul_le dpos).2 ?_)
      have excess : (e + 1) * d ≤ w + Digit.base * p := calc
        (e + 1) * d ≤ (e + 1) * ((v + 1) * p) := Nat.mul_le_mul_left _ (Nat.le_of_lt hd')
        _ = (e + 1) * v * p + (e + 1) * p := by ring
        _ ≤ u * p + Digit.base * p :=
          Nat.add_le_add (Nat.mul_le_mul_right _ e_le) (Nat.mul_le_mul_right _ (Nat.le_of_lt e_lt))
        _ ≤ w + Digit.base * p := Nat.add_le_add_right hw _
      rw [Nat.add_mul, Nat.one_mul] at excess
      omega

/-! ### The multiple of the divisor -/

theorem length_subtractMultiple (q : Digit) (vs ws : Digits) (c : Digit) (b : Bool) :
    (subtractMultiple q vs ws c b).1.length = ws.length := by
  fun_induction subtractMultiple q vs ws c b <;> simp_all

/-- What is left of the window, the multiple of the divisor and the borrow recompose to the window. -/
theorem subtractMultiple_law (q : Digit) {vs ws : Digits} (c : Digit) (b : Bool)
    (len : ws.length = vs.length + 1) :
    value (subtractMultiple q vs ws c b).1 + q.toNat * value vs + c.toNat + b.toNat =
      value ws + weight ws.length * (subtractMultiple q vs ws c b).2.toNat := by
  fun_induction subtractMultiple q vs ws c b with
  | case1 vs c b => simp at len
  | case2 w ws c b x t h =>
    have law := Digit.subBorrow_law w c b
    rw [h] at law
    have nil : ws = [] := List.eq_nil_of_length_eq_zero (by simpa using len)
    simpa [nil] using law
  | case3 v vs w ws c b hi lo hm x t h rest t' hr ih =>
    have mul := Digit.mulAdd_law q v c 0
    have sub := Digit.subBorrow_law w lo b
    have ih := ih (by simpa using len)
    rw [hm] at mul
    rw [h] at sub
    rw [hr] at ih
    simp only [value_cons, List.length_cons, weight_succ, Nat.mul_add, Nat.mul_assoc,
      Nat.mul_left_comm q.toNat]
    generalize weight ws.length * t'.toNat = u at ih ⊢
    generalize q.toNat * value vs = p at ih ⊢
    simp only [UInt64.toNat_zero, Digit.base] at mul sub ih ⊢
    omega

/-- A multiple taken from a window: the borrow stands for one more place of the window. -/
theorem subtractMultiple_window (q : Digit) {vs ws : Digits} (len : ws.length = vs.length + 1) :
    value (subtractMultiple q vs ws 0 false).1 + q.toNat * value vs =
      value ws + weight ws.length * (subtractMultiple q vs ws 0 false).2.toNat := by
  simpa using subtractMultiple_law q 0 false len

theorem length_addBack : ∀ (vs ws : Digits) (c : Bool), (addBack vs ws c).length = ws.length
  | _, [], _ => by rw [addBack]
  | [], w :: ws, c => by rw [addBack, List.length_cons, List.length_cons]
  | v :: vs, w :: ws, c => by
    rw [addBack, List.length_cons, List.length_cons, length_addBack vs ws]

/-- The divisor added back, with what leaves the top of the window, recomposes to the sum. -/
theorem addBack_law : ∀ {vs ws : Digits} (c : Bool), ws.length = vs.length + 1 →
    ∃ t, value (addBack vs ws c) + weight ws.length * t = value ws + value vs + c.toNat
  | [], w :: ws, c, len => by
    have nil : ws = [] := List.eq_nil_of_length_eq_zero (by simpa using len)
    have law := Digit.add_law w (Digit.ofBool c)
    refine ⟨(decide (w + Digit.ofBool c < w)).toNat, ?_⟩
    simpa [nil, addBack] using law
  | v :: vs, w :: ws, c, len => by
    have law := Digit.addCarry_law w v c
    have rest : ws.length = vs.length + 1 := by simpa using len
    obtain ⟨u, ih⟩ := addBack_law (Digit.addCarry w v c).2 rest
    refine ⟨u, ?_⟩
    simp only [addBack, value_cons, List.length_cons, weight_succ, Nat.mul_assoc]
    generalize weight ws.length * u = p at ih ⊢
    simp only [Digit.base] at law ih ⊢
    omega

/-- A borrow is left at the top exactly when the multiple is larger than the window. -/
theorem subtractMultiple_snd (q : Digit) {vs ws : Digits} (len : ws.length = vs.length + 1) :
    (subtractMultiple q vs ws 0 false).2 = decide (value ws < q.toNat * value vs) := by
  have law := subtractMultiple_window q len
  have lt := value_lt (subtractMultiple q vs ws 0 false).1
  rw [length_subtractMultiple] at lt
  cases h : (subtractMultiple q vs ws 0 false).2 with
  | false =>
    rw [h, Bool.toNat_false, Nat.mul_zero] at law
    exact (decide_eq_false (by omega)).symm
  | true =>
    rw [h, Bool.toNat_true, Nat.mul_one] at law
    exact (decide_eq_true (by omega)).symm

/-- A multiple that is too large by at most the divisor: adding the divisor back cancels the borrow. -/
theorem value_addBack {q : Digit} {vs ws : Digits} (len : ws.length = vs.length + 1)
    (excess : value ws < q.toNat * value vs) (le : q.toNat * value vs ≤ value ws + value vs) :
    value (addBack vs (subtractMultiple q vs ws 0 false).1 false) + q.toNat * value vs =
      value ws + value vs := by
  have law := subtractMultiple_window q len
  have rlen := length_subtractMultiple q vs ws 0 false
  have restLt := value_lt (subtractMultiple q vs ws 0 false).1
  rw [subtractMultiple_snd q len, decide_eq_true excess, Bool.toNat_true, Nat.mul_one] at law
  generalize (subtractMultiple q vs ws 0 false).1 = rest at *
  have shorter : vs.length ≤ ws.length := by omega
  obtain ⟨t, back⟩ := addBack_law false (rlen.trans len)
  have backLt := value_lt (addBack vs rest false)
  have small := Nat.lt_of_lt_of_le (value_lt vs) (weight_mono shorter)
  rw [length_addBack, rlen] at backLt
  rw [rlen, Bool.toNat_false, Nat.add_zero] at back
  rw [rlen] at restLt
  -- what leaves the top of the window is the borrow, once
  rcases t with _ | _ | t
  · rw [Nat.mul_zero] at back
    omega
  · rw [Nat.zero_add, Nat.mul_one] at back
    omega
  · have two : 2 ≤ t + 1 + 1 := Nat.le_add_left ..
    have twice := Nat.mul_le_mul_left (weight ws.length) two
    omega

/-! ### The digit of a window -/

section Window

variable {low : Digits} {next top : Digit}

/-- The two top digits of a divisor lead it. -/
theorem value_leading (low : Digits) (next top : Digit) :
    value (low ++ [next, top]) =
      (top.toNat * Digit.base + next.toNat) * weight low.length + value low := by
  rw [value_append]
  simp only [value_cons, value_nil]
  ring

/-- A window is led by its three top digits. -/
theorem value_window (low : Digits) (c b a : Digit) :
    value (low ++ [c, b, a]) =
      (Digit.join a b * Digit.base + c.toNat) * weight low.length + value low := by
  rw [value_append]
  simp only [value_cons, value_nil, Digit.join]
  ring

theorem exists_window {ws : Digits} {n : Nat} (len : ws.length = n + 3) :
    ∃ low c b a, low.length = n ∧ ws = low ++ [c, b, a] := by
  obtain ⟨low, high, hlow, three, rfl⟩ := exists_append_of_length len
  obtain ⟨c, b, a, rfl⟩ := List.length_eq_three.1 three
  exact ⟨low, c, b, a, hlow, rfl⟩

/-- The estimate of a window below the base times the divisor is its quotient or one more. -/
theorem estimate_spec (pos : 0 < top.toNat) {ws : Digits} (len : ws.length = low.length + 3)
    (lt : value ws < value (low ++ [next, top]) * Digit.base) :
    estimate top next ws < Digit.base ∧
      value ws / value (low ++ [next, top]) ≤ estimate top next ws ∧
      estimate top next ws ≤ value ws / value (low ++ [next, top]) + 1 := by
  obtain ⟨below, c, b, a, hlen, rfl⟩ := exists_window len
  have hlow := value_lt low
  have hbelow := value_lt below
  have hc := Digit.toNat_lt_base c
  have hnext := Digit.toNat_lt_base next
  have P := weight_pos low.length
  rw [hlen] at hbelow
  rw [value_leading, value_window, hlen] at *
  -- the top digit of the window is at most that of the divisor
  have ha : a.toNat ≤ top.toNat := by
    refine Nat.le_of_lt_succ (Nat.lt_of_mul_lt_mul_right
      (a := Digit.base * Digit.base * weight low.length) ?_)
    calc a.toNat * (Digit.base * Digit.base * weight low.length)
        ≤ (Digit.join a b * Digit.base + c.toNat) * weight low.length + value below := by
          simp only [Digit.join]
          ring_nf
          omega
      _ < ((top.toNat * Digit.base + next.toNat) * weight low.length + value low) * Digit.base := lt
      _ ≤ (top.toNat * Digit.base + Digit.base) * weight low.length * Digit.base := by
          refine Nat.mul_le_mul_right _ ?_
          have place : top.toNat * Digit.base + next.toNat + 1 ≤
              top.toNat * Digit.base + Digit.base := by omega
          have above := Nat.mul_le_mul_right (weight low.length) place
          rw [Nat.succ_mul] at above
          omega
      _ = (top.toNat + 1) * (Digit.base * Digit.base * weight low.length) := by ring
  rw [estimate_eq pos below a b c ha, threeByTwo]
  constructor
  · exact Nat.lt_of_le_of_lt (Nat.min_le_left ..) (Nat.sub_lt base_pos Nat.one_pos)
  · have lead : Digit.base ≤ top.toNat * Digit.base + next.toNat :=
      Nat.le_trans (Nat.le_mul_of_pos_left _ pos) (Nat.le_add_right ..)
    refine div_le_estimate_le (p := weight low.length) ?_ ?_ ?_ ?_ ?_ lt ?_
    · exact Nat.le_add_right ..
    · rw [Nat.succ_mul]
      omega
    · exact Nat.le_add_right ..
    · rw [Nat.succ_mul]
      omega
    · exact Nat.le_trans (Nat.mul_le_mul_right _ lead) (Nat.le_add_right ..)
    · exact Nat.lt_of_lt_of_le base_pos lead

/-- The digit of a window, and the window that is left, by whether the multiple of the divisor fits. -/
theorem divideWindow_eq {vs ws : Digits} (top next : Digit) (len : ws.length = vs.length + 1) :
    divideWindow vs top next ws =
      if value ws < (Digit.low (estimate top next ws)).toNat * value vs then
        (Digit.low (estimate top next ws) - 1,
          addBack vs (subtractMultiple (Digit.low (estimate top next ws)) vs ws 0 false).1 false)
      else (Digit.low (estimate top next ws),
        (subtractMultiple (Digit.low (estimate top next ws)) vs ws 0 false).1) := by
  have borrow := subtractMultiple_snd (Digit.low (estimate top next ws)) len
  rw [divideWindow]
  split
  · next rest h =>
    rw [h] at borrow ⊢
    rw [if_neg (of_decide_eq_false borrow.symm)]
  · next rest h =>
    rw [h] at borrow ⊢
    rw [if_pos (of_decide_eq_true borrow.symm)]

theorem length_divideWindow {vs ws : Digits} (top next : Digit) (len : ws.length = vs.length + 1) :
    (divideWindow vs top next ws).2.length = ws.length := by
  rw [divideWindow_eq top next len]
  split
  · exact (length_addBack ..).trans (length_subtractMultiple ..)
  · exact length_subtractMultiple ..

/-- The quotient digit and the remainder of a window below the base times the divisor. -/
theorem divideWindow_spec (pos : 0 < top.toNat) {ws : Digits} (len : ws.length = low.length + 3)
    (lt : value ws < value (low ++ [next, top]) * Digit.base) :
    (divideWindow (low ++ [next, top]) top next ws).1.toNat =
        value ws / value (low ++ [next, top]) ∧
      value (divideWindow (low ++ [next, top]) top next ws).2 =
        value ws % value (low ++ [next, top]) := by
  obtain ⟨small, le, ge⟩ := estimate_spec pos len lt
  have dlen : ws.length = (low ++ [next, top]).length + 1 := by simp [len]
  have dpos : 0 < value (low ++ [next, top]) := by
    apply Nat.pos_of_ne_zero
    intro z
    rw [z] at lt
    omega
  have split := Nat.div_add_mod' (value ws) (value (low ++ [next, top]))
  have rem := Nat.mod_lt (value ws) dpos
  have hq := Digit.toNat_low_of_lt small
  rw [divideWindow_eq top next dlen]
  generalize low ++ [next, top] = vs at *
  generalize Digit.low (estimate top next ws) = q at *
  generalize value ws / value vs = Q at *
  generalize value ws % value vs = R at *
  -- the estimate is the quotient or one more, and the two differ by the divisor
  have near : q.toNat = Q ∨ q.toNat = Q + 1 := by omega
  rcases near with h | h
  · rw [if_neg (by rw [h]; omega)]
    have law := subtractMultiple_window q dlen
    rw [subtractMultiple_snd q dlen, decide_eq_false (by rw [h]; omega), Bool.toNat_false,
      Nat.mul_zero, Nat.add_zero, h] at law
    refine ⟨h, ?_⟩
    dsimp only
    omega
  · have one_more : q.toNat * value vs = Q * value vs + value vs := by rw [h, Nat.succ_mul]
    rw [if_pos (by omega)]
    have back := value_addBack (q := q) dlen (by omega) (by omega)
    have one : (1 : Digit).toNat = 1 := rfl
    dsimp only
    rw [UInt64.toNat_sub_of_le _ _ (by rw [UInt64.le_iff_toNat_le, one]; omega), one]
    omega

end Window

end Multiprecision.Digits
