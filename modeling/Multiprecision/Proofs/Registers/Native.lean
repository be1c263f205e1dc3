import Multiprecision.Proofs.Integer.Canonical
import Multiprecision.Proofs.Registers

/-! Native operands take a short way: they are never made integers, unless they are divided. It does not
    show. An operation with a native operand on either side is the one with the integer of its value, an
    assignment leaves what the operation gives or, where it fails, what was there before, and no run of
    steps tells the short way from the long one. -/

namespace Multiprecision.Registers

/-! ### Registers -/

section Write

variable {regs : Registers} {d i : Nat}

theorem get_eq_of_getElem? {x : Integer} (h : regs[d]? = some x) : regs.get d = x := by
  rw [get, List.getD_eq_getElem?_getD, h]
  rfl

/-- A register that is written holds what is written. -/
theorem get_set_self (lt : d < regs.length) (x : Integer) : get (regs.set d x) d = x :=
  get_eq_of_getElem? (List.getElem?_set_self lt)

/-- The other registers hold what they held. -/
theorem get_set_ne (ne : i ≠ d) (x : Integer) : get (regs.set d x) i = regs.get i := by
  rw [get, get, List.getD_eq_getElem?_getD, List.getD_eq_getElem?_getD, List.getElem?_set_ne ne.symm]

end Write

/-! ### Every step keeps registers coherent -/

section Coherent

variable {regs : Registers} (coherent : regs.Coherent)

include coherent

/-- A step that writes a result keeps registers coherent when the result is. -/
theorem coherent_write {r : Except Error Integer} {g : Error → Failure} {d : Nat}
    {out : Answer × Registers} (keeps : ∀ x, r = .ok x → x.Coherent)
    (h : (r.mapError g).map (regs.write d) = .ok out) : out.2.Coherent := by
  obtain ⟨x, hx, rfl⟩ := Except.map_eq_ok_iff.1 h
  exact coherent_set coherent d (keeps x (Except.mapError_eq_ok_iff.1 hx))

theorem coherent_step {s : Step} {out : Answer × Registers} (h : regs.step s = .ok out) :
    out.2.Coherent := by
  have arithmetic : s.isArithmetic = true → out.2.Coherent := by
    intro arithmetic
    refine (follows_next coherent arithmetic).coherent out.2 ?_
    rw [next, h]
    rfl
  cases s with
  | native f side x t p d =>
    have hx := coherent_get coherent x
    have hp := Integer.coherent_ofNative p
    cases side with
    | left =>
      refine coherent_write coherent ?_ h
      intro z hz
      rw [Integer.nativeOperate_eq p f hx] at hz
      exact Integer.coherent_operate hp hx hz
    | right =>
      refine coherent_write coherent ?_ h
      intro z hz
      rw [Integer.operateNative_eq] at hz
      exact Integer.coherent_operate hx hp hz
  | parse base text d => exact coherent_write coherent (fun _ => Integer.coherent_ofString) h
  | subFloat x value d => exact coherent_write coherent (fun _ => Integer.coherent_subFloat) h
  | reread base x d =>
    obtain ⟨text, -, h⟩ := Except.bind_eq_ok_iff.1 h
    obtain ⟨n, hn, rfl⟩ := Except.map_eq_ok_iff.1 h
    exact coherent_set coherent d (Integer.coherent_ofString (Except.mapError_eq_ok_iff.1 hn))
  | _ => exact arithmetic rfl

end Coherent

/-! ### The long way -/

/-- A step in which a native operand is made an integer first. -/
def longStep (regs : Registers) : Step → Except Failure (Answer × Registers)
  | .native f .right x _ p d =>
    ((Integer.operate f (regs.get x) (.ofNative p)).mapError .stopped).map (regs.write d)
  | .native f .left x _ p d =>
    ((Integer.operate f (.ofNative p) (regs.get x)).mapError .stopped).map (regs.write d)
  | s => regs.step s

/-- A run of such steps. -/
def longRun : Registers → List Step → List (Except Failure Answer) × Registers
  | regs, [] => ([], regs)
  | regs, s :: ss =>
    match regs.longStep s with
    | .ok (a, next) =>
      let (answers, last) := longRun next ss
      (.ok a :: answers, last)
    | .error e =>
      let (answers, last) := longRun regs ss
      (.error e :: answers, last)

theorem step_eq_longStep {regs : Registers} (coherent : regs.Coherent) (s : Step) :
    regs.step s = regs.longStep s := by
  cases s with
  | native f side x t p d =>
    cases side with
    | left => rw [step, longStep, Integer.nativeOperate_eq p f (coherent_get coherent x)]
    | right => rw [step, longStep, Integer.operateNative_eq]
  | _ => rfl

/-- No run over coherent registers tells the short way of native operands from the long one. -/
theorem run_eq_longRun {regs : Registers} (coherent : regs.Coherent) (steps : List Step) :
    run regs steps = longRun regs steps := by
  induction steps generalizing regs with
  | nil => rfl
  | cons s ss ih =>
    rw [run, longRun, ← step_eq_longStep coherent s]
    cases h : regs.step s with
    | error e =>
      dsimp only
      rw [ih coherent]
    | ok out =>
      dsimp only
      rw [ih (coherent_step coherent h)]

/-! ### Assignments -/

section Assignment

variable {f : Integer.Operation} {t : NativeType} {p : Native t} {regs : Registers} {d : Nat} {x : Integer}

/-- An assignment with a native operand writes what the operation gives, and no other register. -/
theorem run_assign_ok {z : Integer} (held : regs[d]? = some x)
    (result : Integer.operate f x (.ofNative p) = .ok z) :
    ∃ after, run regs [.native f .right d t p d] = ([.ok (.one z)], after) ∧ after.get d = z ∧
      ∀ i ≠ d, after.get i = regs.get i := by
  refine ⟨regs.set d z, ?_, get_set_self (List.getElem?_eq_some_iff.1 held).1 z, ?_⟩
  · rw [run, step, get_eq_of_getElem? held, Integer.operateNative_eq, result]
    rfl
  · intro i ne
    exact get_set_ne ne z

/-- An assignment that fails writes nothing. -/
theorem run_assign_error {e : Error} (held : regs[d]? = some x)
    (result : Integer.operate f x (.ofNative p) = .error e) :
    run regs [.native f .right d t p d] = ([.error (.stopped e)], regs) := by
  rw [run, step, get_eq_of_getElem? held, Integer.operateNative_eq, result]
  rfl

end Assignment

/-- A native operand does what the integer of its value does. On either side, an operation with it gives
    what it gives with that integer, and fails where that fails: in a division by zero. An assignment
    leaves in its register what the operation gives; where the operation fails, every register holds what
    it held. And a run over coherent registers goes as it goes when each native operand is made an integer
    first. -/
theorem native_operands_agree :
    (∀ (f : Integer.Operation) (x : Integer) (t : NativeType) (p : Native t), x.Coherent →
      x.operateNative f p = Integer.operate f x (.ofNative p) ∧
        Integer.nativeOperate f p x = Integer.operate f (.ofNative p) x ∧
        (∀ e, x.operateNative f p = .error e ↔
          (f = .div ∨ f = .rem) ∧ p.toInt = 0 ∧ e = .divisionByZero) ∧
        (∀ e, Integer.nativeOperate f p x = .error e ↔
          (f = .div ∨ f = .rem) ∧ x.toInt = 0 ∧ e = .divisionByZero) ∧
        ∀ (regs : Registers) (d : Nat), regs[d]? = some x →
          (∀ z, Integer.operate f x (.ofNative p) = .ok z →
            ∃ after, run regs [.native f .right d t p d] = ([.ok (.one z)], after) ∧
              after.get d = z ∧ ∀ i ≠ d, after.get i = regs.get i) ∧
          ∀ e, Integer.operate f x (.ofNative p) = .error e →
            run regs [.native f .right d t p d] = ([.error (.stopped e)], regs)) ∧
      ∀ regs : Registers, regs.Coherent → ∀ steps, run regs steps = longRun regs steps := by
  refine ⟨?_, fun _ => run_eq_longRun⟩
  intro f x t p hx
  have right := Integer.operateNative_eq p f x
  have left := Integer.nativeOperate_eq p f hx
  refine ⟨right, left, ?_, ?_, ?_⟩
  · intro e
    rw [right, Integer.operate_eq_error_iff x (Integer.coherent_ofNative p), Integer.toInt_ofNative]
  · intro e
    rw [left, Integer.operate_eq_error_iff _ hx]
  · intro regs d held
    exact ⟨fun z => run_assign_ok held, fun e => run_assign_error held⟩

/-- The least native value of two digits is subtracted from one, and a remainder by zero is assigned. The
    run that does so ends as it ends the long way. -/
theorem native_operands_agree_least :
    Integer.one.operateNative .sub
        (⟨-(twoTo 127 : Int), by decide, by decide⟩ : Native ⟨true, .w128⟩) =
      .ok (.make .positive (.ofDigits [1, 9223372036854775808])) ∧
      run [.one] [.native .rem .right 0 ⟨false, .w8⟩ ⟨0, by decide, by decide⟩ 0] =
        ([.error (.stopped .divisionByZero)], [.one]) ∧
      run [.one] [.native .sub .right 0 ⟨true, .w128⟩ ⟨-(twoTo 127 : Int), by decide, by decide⟩ 0,
          .native .rem .right 0 ⟨false, .w8⟩ ⟨0, by decide, by decide⟩ 0] =
        longRun [.one] [.native .sub .right 0 ⟨true, .w128⟩ ⟨-(twoTo 127 : Int), by decide, by decide⟩ 0,
          .native .rem .right 0 ⟨false, .w8⟩ ⟨0, by decide, by decide⟩ 0] := by
  refine ⟨?_, ?_, ?_⟩
  · obtain ⟨right, -⟩ := native_operands_agree.1 .sub .one ⟨true, .w128⟩
      ⟨-(twoTo 127 : Int), by decide, by decide⟩ (by decide)
    exact right.trans (by decide)
  · obtain ⟨-, -, -, -, assign⟩ := native_operands_agree.1 .rem .one ⟨false, .w8⟩
      ⟨0, by decide, by decide⟩ (by decide)
    exact (assign [.one] 0 rfl).2 .divisionByZero (by decide)
  · exact native_operands_agree.2 [.one] (by decide) _

end Multiprecision.Registers
