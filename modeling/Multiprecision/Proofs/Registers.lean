import Multiprecision.Proofs.Integer.Arithmetic
import Multiprecision.Registers

/-! Runs of arithmetic steps compute with the numbers that the registers denote. The same steps are
    defined on lists of numbers, and a run over registers of coherent integers is, step by step, the run
    over their numbers: the same numbers in every register, and the same failures. -/

namespace Multiprecision.Registers

/-! ### The steps on numbers -/

/-- An operation between two numbers, with quotients taken toward zero. -/
def operateNumbers : Integer.Operation → Int → Int → Except Error Int
  | .add, n, m => .ok (n + m)
  | .sub, n, m => .ok (n - m)
  | .mul, n, m => .ok (n * m)
  | .div, n, m => if m = 0 then .error .divisionByZero else .ok (n.tdiv m)
  | .rem, n, m => if m = 0 then .error .divisionByZero else .ok (n.tmod m)

/-- Whether a step is arithmetic between registers: it reads no native value, no text and no float. -/
def Step.isArithmetic : Step → Bool
  | .native .. | .parse .. | .subFloat .. | .reread .. => false
  | _ => true

/-- The numbers after an arithmetic step, or how it fails. Other steps are left out. -/
def numberStep (ns : List Int) : Step → Except Failure (List Int)
  | .operate f x y d =>
    ((operateNumbers f (ns.getD x 0) (ns.getD y 0)).mapError .stopped).map (ns.set d)
  | .subReusing _ x y d => .ok (ns.set d (ns.getD x 0 - ns.getD y 0))
  | .assign f d y =>
    ((operateNumbers f (ns.getD d 0) (ns.getD y 0)).mapError .stopped).map (ns.set d)
  | .divRem x y d e =>
    if ns.getD y 0 = 0 then .error (.refused .divisionByZero)
    else .ok ((ns.set d ((ns.getD x 0).tdiv (ns.getD y 0))).set e ((ns.getD x 0).tmod (ns.getD y 0)))
  | .checkedDiv x y d =>
    if ns.getD y 0 = 0 then .error .missing else .ok (ns.set d ((ns.getD x 0).tdiv (ns.getD y 0)))
  | .checkedRem x y d =>
    if ns.getD y 0 = 0 then .error .missing else .ok (ns.set d ((ns.getD x 0).tmod (ns.getD y 0)))
  | .neg x d => .ok (ns.set d (-ns.getD x 0))
  | .abs x d => .ok (ns.set d (ns.getD x 0).natAbs)
  | .signum x d => .ok (ns.set d (ns.getD x 0).sign)
  | .absSub x y d => .ok (ns.set d (max 0 (ns.getD x 0 - ns.getD y 0)))
  | .sum xs d => .ok (ns.set d (xs.map (ns.getD · 0)).sum)
  | .product xs d => .ok (ns.set d (xs.map (ns.getD · 0)).prod)
  | .setZero d => .ok (ns.set d 0)
  | .setOne d => .ok (ns.set d 1)
  | .native .. | .parse .. | .subFloat .. | .reread .. => .ok ns

/-! ### Runs step by step -/

/-- The state after each step of a run, and how the step fails if it does. A step that fails leaves the
    state as it was. -/
def trace {σ : Type} (step : σ → Step → Except Failure σ) : σ → List Step → List (Option Failure × σ)
  | _, [] => []
  | s, a :: as =>
    match step s a with
    | .ok t => (none, t) :: trace step t as
    | .error e => (some e, s) :: trace step s as

/-- The registers after a step. -/
def next (regs : Registers) (s : Step) : Except Failure Registers := (regs.step s).map (·.2)

/-- How a step fails, if it does. -/
def failure? : Except Failure Answer → Option Failure
  | .ok _ => none
  | .error e => some e

/-- A run answers the failures of its steps, and ends in the registers after its last step. -/
theorem run_eq_trace (regs : Registers) (steps : List Step) :
    (run regs steps).1.map failure? = (trace next regs steps).map (·.1) ∧
      (run regs steps).2 = ((trace next regs steps).map (·.2)).getLastD regs := by
  induction steps generalizing regs with
  | nil => exact ⟨rfl, rfl⟩
  | cons s ss ih =>
    rw [run, trace, next]
    cases regs.step s with
    | error e =>
      obtain ⟨failures, last⟩ := ih regs
      refine ⟨?_, ?_⟩
      · exact congrArg (some e :: ·) failures
      · exact last.trans (List.getLastD_cons ..).symm
    | ok out =>
      obtain ⟨failures, last⟩ := ih out.2
      refine ⟨?_, ?_⟩
      · exact congrArg (none :: ·) failures
      · exact last.trans (List.getLastD_cons ..).symm

/-! ### One step -/

/-- Registers that all hold coherent integers. -/
def Coherent (regs : Registers) : Prop := ∀ x ∈ regs, x.Coherent

instance (regs : Registers) : Decidable regs.Coherent :=
  inferInstanceAs (Decidable (∀ x ∈ regs, x.Coherent))

section Coherent

variable {regs : Registers} (coherent : regs.Coherent)

include coherent

theorem coherent_get (i : Nat) : (regs.get i).Coherent := by
  rw [get, List.getD_eq_getElem?_getD]
  cases h : regs[i]? with
  | none => exact Integer.coherent_zero
  | some x => exact coherent x (List.mem_of_getElem? h)

theorem coherent_set (d : Nat) {x : Integer} (hx : x.Coherent) : Coherent (regs.set d x) := by
  intro y mem
  rcases List.mem_or_eq_of_mem_set mem with mem | rfl
  · exact coherent y mem
  · exact hx

theorem coherent_map_get (is : List Nat) : ∀ x ∈ is.map regs.get, x.Coherent := by
  intro x mem
  obtain ⟨i, -, rfl⟩ := List.mem_map.1 mem
  exact coherent_get coherent i

end Coherent

theorem toInt_get (regs : Registers) (i : Nat) :
    (regs.map Integer.toInt).getD i 0 = (regs.get i).toInt := by
  rw [get, List.getD_eq_getElem?_getD, List.getD_eq_getElem?_getD, List.getElem?_map]
  cases regs[i]? <;> rfl

theorem map_toInt_get (regs : Registers) (is : List Nat) :
    is.map ((regs.map Integer.toInt).getD · 0) = (is.map regs.get).map Integer.toInt := by
  rw [List.map_map]
  apply List.map_congr_left
  intro i _
  exact toInt_get regs i

/-- What a step makes of registers follows what it makes of numbers. -/
structure Follows (out : Except Failure Registers) (numbers : Except Failure (List Int)) : Prop where
  values : out.map (List.map Integer.toInt) = numbers
  coherent : ∀ after, out = .ok after → after.Coherent

namespace Follows

variable {regs : Registers}

theorem write (coherent : regs.Coherent) (d : Nat) {x : Integer} {n : Int} (value : x.toInt = n)
    (hx : x.Coherent) : Follows (.ok (regs.set d x)) (.ok ((regs.map Integer.toInt).set d n)) := by
  refine ⟨?_, ?_⟩
  · rw [← value, ← List.map_set]
    rfl
  · rintro _ ⟨⟩
    exact coherent_set coherent d hx

theorem fail (e : Failure) : Follows (.error e) (.error e) := ⟨rfl, by rintro _ ⟨⟩⟩

/-- A step that writes the result of an operation. -/
theorem operate (coherent : regs.Coherent) (f : Integer.Operation) (x y d : Nat) :
    Follows ((((Integer.operate f (regs.get x) (regs.get y)).mapError Failure.stopped).map
        (regs.write d)).map (·.2))
      (((operateNumbers f (regs.get x).toInt (regs.get y).toInt).mapError .stopped).map
        ((regs.map Integer.toInt).set d)) := by
  have hx := coherent_get coherent x
  have hy := coherent_get coherent y
  cases f with
  | add => exact write coherent d (Integer.toInt_add ..) (Integer.coherent_add hx hy)
  | sub => exact write coherent d (Integer.toInt_sub ..) (Integer.coherent_sub hx hy)
  | mul => exact write coherent d (Integer.toInt_mul ..) (Integer.coherent_mul hx hy)
  | div =>
    rw [Integer.operate, Integer.div_eq _ hy, operateNumbers]
    split
    · exact fail _
    · exact write coherent d (Integer.toInt_quotient ..) (Integer.coherent_quotient hx hy)
  | rem =>
    rw [Integer.operate, Integer.rem_eq _ hy, operateNumbers]
    split
    · exact fail _
    · exact write coherent d (Integer.toInt_remainder _ hy) (Integer.coherent_remainder hx _)

end Follows

/-- An arithmetic step makes of coherent registers what it makes of their numbers, and keeps them
    coherent. -/
theorem follows_next {regs : Registers} (coherent : regs.Coherent) {s : Step}
    (arithmetic : s.isArithmetic = true) :
    Follows (next regs s) (numberStep (regs.map Integer.toInt) s) := by
  have hget := coherent_get coherent
  cases s with
  | operate f x y d =>
    rw [next, step, numberStep, toInt_get, toInt_get]
    exact Follows.operate coherent f x y d
  | subReusing r x y d =>
    rw [next, step, numberStep, toInt_get, toInt_get]
    exact Follows.write coherent d (Integer.toInt_subReusing r (hget x) (hget y))
      (Integer.coherent_subReusing r (hget x) (hget y))
  | assign f d y =>
    rw [next, step, numberStep, toInt_get, toInt_get]
    exact Follows.operate coherent f d y d
  | native f side x t p d => cases arithmetic
  | divRem x y d e =>
    rw [next, step, numberStep, toInt_get, toInt_get, Integer.divRem_eq _ (hget y)]
    split
    · exact Follows.fail _
    · have hq := Integer.coherent_quotient (hget x) (hget y)
      have second := Follows.write (coherent_set coherent d hq) e
        (Integer.toInt_remainder (regs.get x) (hget y)) (Integer.coherent_remainder (hget x) _)
      rw [List.map_set, Integer.toInt_quotient] at second
      exact second
  | checkedDiv x y d =>
    rw [next, step, numberStep, toInt_get, toInt_get, Integer.div?_eq _ (hget y)]
    by_cases z : (regs.get y).toInt = 0
    · rw [if_pos z, if_pos z]
      exact Follows.fail _
    · rw [if_neg z, if_neg z]
      exact Follows.write coherent d (Integer.toInt_quotient ..)
        (Integer.coherent_quotient (hget x) (hget y))
  | checkedRem x y d =>
    rw [next, step, numberStep, toInt_get, toInt_get, Integer.rem?_eq _ (hget y)]
    by_cases z : (regs.get y).toInt = 0
    · rw [if_pos z, if_pos z]
      exact Follows.fail _
    · rw [if_neg z, if_neg z]
      exact Follows.write coherent d (Integer.toInt_remainder _ (hget y))
        (Integer.coherent_remainder (hget x) _)
  | neg x d =>
    rw [next, step, numberStep, toInt_get]
    exact Follows.write coherent d (Integer.toInt_neg _) (Integer.coherent_neg (hget x))
  | abs x d =>
    rw [next, step, numberStep, toInt_get]
    exact Follows.write coherent d (Integer.toInt_abs _) (Integer.coherent_abs (hget x))
  | signum x d =>
    rw [next, step, numberStep, toInt_get]
    exact Follows.write coherent d (Integer.toInt_signum (hget x)) (Integer.coherent_signum _)
  | absSub x y d =>
    rw [next, step, numberStep, toInt_get, toInt_get]
    exact Follows.write coherent d (Integer.toInt_absSub (hget x) (hget y))
      (Integer.coherent_absSub (hget x) (hget y))
  | sum xs d =>
    rw [next, step, numberStep, map_toInt_get]
    exact Follows.write coherent d (Integer.toInt_sum _)
      (Integer.coherent_sum (coherent_map_get coherent xs))
  | product xs d =>
    rw [next, step, numberStep, map_toInt_get]
    exact Follows.write coherent d (Integer.toInt_product _)
      (Integer.coherent_product (coherent_map_get coherent xs))
  | setZero d => exact Follows.write coherent d Integer.toInt_zero Integer.coherent_zero
  | setOne d => exact Follows.write coherent d Integer.toInt_one Integer.coherent_one
  | parse base text d => cases arithmetic
  | subFloat x value d => cases arithmetic
  | reread base x d => cases arithmetic

/-! ### Runs -/

/-- A run over coherent registers is the run over their numbers. -/
theorem trace_next {regs : Registers} (coherent : regs.Coherent) {steps : List Step}
    (arithmetic : ∀ s ∈ steps, s.isArithmetic = true) :
    (trace next regs steps).map (fun p => (p.1, p.2.map Integer.toInt)) =
        trace numberStep (regs.map Integer.toInt) steps ∧
      ∀ p ∈ trace next regs steps, p.2.Coherent := by
  induction steps generalizing regs with
  | nil => exact ⟨rfl, by rintro _ ⟨⟩⟩
  | cons s ss ih =>
    rw [List.forall_mem_cons] at arithmetic
    obtain ⟨values, keeps⟩ := follows_next coherent arithmetic.1
    rw [trace, trace, ← values]
    cases h : next regs s with
    | error e =>
      obtain ⟨ihv, ihc⟩ := ih coherent arithmetic.2
      exact ⟨congrArg ((some e, _) :: ·) ihv, List.forall_mem_cons.2 ⟨coherent, ihc⟩⟩
    | ok after =>
      obtain ⟨ihv, ihc⟩ := ih (keeps after h) arithmetic.2
      exact ⟨congrArg ((none, _) :: ·) ihv, List.forall_mem_cons.2 ⟨keeps after h, ihc⟩⟩

theorem run_append (regs : Registers) (before after : List Step) :
    run regs (before ++ after) =
      ((run regs before).1 ++ (run (run regs before).2 after).1, (run (run regs before).2 after).2) := by
  induction before generalizing regs with
  | nil => rfl
  | cons s ss ih =>
    rw [List.cons_append, run, run]
    cases regs.step s with
    | error e =>
      dsimp only
      rw [ih]
      rfl
    | ok out =>
      dsimp only
      rw [ih]
      rfl

theorem coherent_run {regs : Registers} (coherent : regs.Coherent) {steps : List Step}
    (arithmetic : ∀ s ∈ steps, s.isArithmetic = true) : (run regs steps).2.Coherent := by
  have keeps := (trace_next coherent arithmetic).2
  rw [(run_eq_trace regs steps).2, List.getLastD_eq_getLast?]
  cases h : ((trace next regs steps).map (·.2)).getLast? with
  | none => exact coherent
  | some last =>
    obtain ⟨p, mem, rfl⟩ := List.mem_map.1 (List.mem_of_getLast? h)
    exact keeps p mem

/-- The register that a step divides by. -/
def Step.divisor? : Step → Option Nat
  | .operate .div _ y _ | .operate .rem _ y _ | .assign .div _ y | .assign .rem _ y => some y
  | .divRem _ y _ _ | .checkedDiv _ y _ | .checkedRem _ y _ => some y
  | _ => none

/-- How a step reports a division by zero. -/
def Step.zeroDivision : Step → Failure
  | .divRem .. => .refused .divisionByZero
  | .checkedDiv .. | .checkedRem .. => .missing
  | _ => .stopped .divisionByZero

theorem step_zeroDivision {regs : Registers} (coherent : regs.Coherent) {s : Step} {y : Nat}
    (divides : s.divisor? = some y) (zero : (regs.get y).toInt = 0) :
    regs.step s = .error s.zeroDivision := by
  have hy := coherent_get coherent y
  have stops : ∀ (f : Integer.Operation) (x : Integer), f = .div ∨ f = .rem →
      Integer.operate f x (regs.get y) = .error .divisionByZero := by
    intro f x divides
    exact (Integer.operate_eq_error_iff x hy).2 ⟨divides, zero, rfl⟩
  cases s with
  | operate f x z d =>
    cases f <;> cases divides
    · rw [step, stops .div _ (.inl rfl)]
      rfl
    · rw [step, stops .rem _ (.inr rfl)]
      rfl
  | assign f d z =>
    cases f <;> cases divides
    · rw [step, stops .div _ (.inl rfl)]
      rfl
    · rw [step, stops .rem _ (.inr rfl)]
      rfl
  | divRem x z d e =>
    cases divides
    rw [step, Integer.divRem_eq _ hy, if_pos zero]
    rfl
  | checkedDiv x z d =>
    cases divides
    rw [step, Integer.div?_eq _ hy, if_pos zero]
    rfl
  | checkedRem x z d =>
    cases divides
    rw [step, Integer.rem?_eq _ hy, if_pos zero]
    rfl
  | _ => cases divides

/-- A run of arithmetic steps over coherent registers computes with the numbers they denote: each step
    leaves the same number in every register, and fails in the same way, as over the numbers. A step
    that divides by a register of value zero reports it and leaves every register as it was. -/
theorem run_refines_numbers {regs : Registers} (coherent : regs.Coherent) {steps : List Step}
    (arithmetic : ∀ s ∈ steps, s.isArithmetic = true) :
    (trace next regs steps).map (fun p => (p.1, p.2.map Integer.toInt)) =
        trace numberStep (regs.map Integer.toInt) steps ∧
      ∀ before s after y, steps = before ++ s :: after → s.divisor? = some y →
        ((run regs before).2.get y).toInt = 0 →
        run regs (before ++ [s]) =
          ((run regs before).1 ++ [.error s.zeroDivision], (run regs before).2) := by
  refine ⟨(trace_next coherent arithmetic).1, ?_⟩
  rintro before s after y rfl divides zero
  rw [List.forall_mem_append] at arithmetic
  have reached := coherent_run coherent arithmetic.1
  rw [run_append, run, step_zeroDivision reached divides zero]
  rfl

/-- Two registers of one value: their difference is zero, and a division by it stops. -/
theorem run_refines_numbers_difference :
    (trace next [.one, .one] [.operate .sub 0 1 0, .assign .div 1 0]).map
          (fun p => (p.1, p.2.map Integer.toInt)) =
        [(none, [0, 1]), (some (.stopped .divisionByZero), [0, 1])] ∧
      run [.one, .one] ([.operate .sub 0 1 0] ++ [.assign .div 1 0]) =
        ([.ok (.one .zero), .error (.stopped .divisionByZero)], [.zero, .one]) := by
  have h := @run_refines_numbers [.one, .one] (by decide)
    [.operate .sub 0 1 0, .assign .div 1 0] (by decide)
  refine ⟨h.1.trans (by decide), ?_⟩
  rw [h.2 [.operate .sub 0 1 0] (.assign .div 1 0) [] 0 rfl rfl (by decide)]
  decide

end Multiprecision.Registers
