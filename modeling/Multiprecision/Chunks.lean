/-! A list cut into chunks of one length from its front; the last chunk may be shorter. -/

namespace Multiprecision

/-- The chunks of `n` elements each, from the front; the last one holds what is left. -/
def chunks {α : Type} (n : Nat) : List α → List (List α)
  | [] => []
  | x :: xs => (x :: xs.take (n - 1)) :: chunks n (xs.drop (n - 1))
termination_by l => l.length
decreasing_by simp only [List.length_drop, List.length_cons]; omega

/-- Nothing is lost, and nothing is moved. -/
@[simp] theorem flatten_chunks {α : Type} (n : Nat) (l : List α) : (chunks n l).flatten = l := by
  fun_induction chunks n l with
  | case1 => rfl
  | case2 x xs ih => simp [ih]

/-- A chunk holds at least one element and at most `n`. -/
theorem length_le_of_mem_chunks {α : Type} {n : Nat} (pos : 0 < n) {l c : List α} :
    c ∈ chunks n l → 0 < c.length ∧ c.length ≤ n := by
  fun_induction chunks n l with
  | case1 => simp
  | case2 x xs ih =>
    intro h
    rcases List.mem_cons.1 h with rfl | h
    · simp only [List.length_cons, List.length_take]
      omega
    · exact ih h

end Multiprecision
