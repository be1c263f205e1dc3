import Multiprecision.Integer.Exchange
import Multiprecision.Integer.Words
import Multiprecision.Proofs.Integer.Native
import Multiprecision.Proofs.Result

/-! Canonical form is kept by everything that makes integers. What can be made is an inductive predicate
    with one constructor for each public constructor and operation, and the form is proved by induction
    on it. Many operations assemble an integer from a sign and a magnitude without looking at them again;
    what they hand over agrees, also where the integer is only used on the way to a result. -/

namespace Multiprecision.Integer

/-- At least one digit, no zero at the top but in the digit zero itself, and the sign zero for that
    digit alone. -/
structure Canonical (x : Integer) : Prop where
  nonempty : x.digits ≠ []
  top : x.digits.getLast? = some 0 → x.digits = [0]
  sign : x.sign = .zero ↔ x.digits = [0]

theorem Coherent.canonical {x : Integer} (hx : x.Coherent) : x.Canonical where
  nonempty := x.magnitude.normal.1
  top := x.magnitude.normal.2
  sign := hx.trans beq_iff_eq

theorem coherent_iff_canonical (x : Integer) : x.Coherent ↔ x.Canonical := by
  constructor
  · exact Coherent.canonical
  · intro h
    exact h.sign.trans beq_iff_eq.symm

/-! ### What makes integers -/

/-- The integers that the public constructors and operations compose. -/
inductive Produced : Integer → Prop where
  | zero : Produced zero
  | one : Produced one
  | make (s : Sign) (ds : Digits) : Produced (make s (Magnitude.ofDigits ds))
  | ofMagnitude (m : Magnitude) : Produced (ofMagnitude m)
  | ofNative {t : NativeType} (p : Native t) : Produced (ofNative p)
  | ofFloat {f : BinaryFloat.Format} {v : BinaryFloat} {x : Integer} :
    ofFloat f v = .ok x → Produced x
  | ofString {base : Nat} {s : String} {x : Integer} : ofString base s = .ok x → Produced x
  | ofBytes {base : Nat} {bytes : List UInt8} {x : Integer} : ofBytes? base bytes = some x → Produced x
  | ofDatum {d : Datum} {x : Integer} : ofDatum d = .ok x → Produced x
  | ofNatural {N Z : Type} (W : WordNumbers N Z) (n : N) : Produced (ofNatural W n)
  | ofNumber {N Z : Type} (W : WordNumbers N Z) (z : Z) : Produced (ofNumber W z)
  | operate {f : Operation} {x y z : Integer} :
    Produced x → Produced y → operate f x y = .ok z → Produced z
  | subReusing (r : Reuse) {x y : Integer} : Produced x → Produced y → Produced (subReusing r x y)
  | operateNative {f : Operation} {x z : Integer} {t : NativeType} {p : Native t} :
    Produced x → x.operateNative f p = .ok z → Produced z
  | nativeOperate {f : Operation} {x z : Integer} {t : NativeType} {p : Native t} :
    Produced x → nativeOperate f p x = .ok z → Produced z
  | quotient {rule : DivisionRule} {x y q r : Integer} :
    Produced x → Produced y → divRemBy rule x y = .ok (q, r) → Produced q
  | remainder {rule : DivisionRule} {x y q r : Integer} :
    Produced x → Produced y → divRemBy rule x y = .ok (q, r) → Produced r
  | neg {x : Integer} : Produced x → Produced (-x)
  | abs {x : Integer} : Produced x → Produced x.abs
  | signum {x : Integer} : Produced x → Produced x.signum
  | absSub {x y : Integer} : Produced x → Produced y → Produced (absSub x y)
  | sum {xs : List Integer} : (∀ x ∈ xs, Produced x) → Produced (sum xs)
  | product {xs : List Integer} : (∀ x ∈ xs, Produced x) → Produced (product xs)
  | subFloat {f : BinaryFloat.Format} {x z : Integer} {v : BinaryFloat} :
    Produced x → x.subFloat f v = .ok z → Produced z

/-- The integers that are assembled from a sign and a magnitude as they are handed over, be it as a
    result or on the way to one. -/
inductive Assembled : Integer → Prop where
  | zero : Assembled zero
  | one : Assembled one
  | sum {x y : Integer} : Produced x → Produced y →
    Assembled (addSigned x.sign x.magnitude y.sign y.magnitude)
  | difference {x y : Integer} : Produced x → Produced y →
    Assembled (addSigned x.sign x.magnitude (-y.sign) y.magnitude)
  | product {x y : Integer} : Produced x → Produced y → Assembled (x * y)
  | quotient {rule : DivisionRule} {x y q r : Integer} :
    Produced x → Produced y → divRemBy rule x y = .ok (q, r) → Assembled q
  | remainder {rule : DivisionRule} {x y q r : Integer} :
    Produced x → Produced y → divRemBy rule x y = .ok (q, r) → Assembled r
  | abs {x : Integer} : Produced x → Assembled x.abs
  | subFloat {f : BinaryFloat.Format} {x z : Integer} {v : BinaryFloat} :
    Produced x → x.subFloat f v = .ok z → Assembled z
  | sumNative {x : Integer} {t : NativeType} (p : Native t) :
    Produced x → Assembled (x.addOperand (.ofNative p))
  | differenceNative {x : Integer} {t : NativeType} (p : Native t) :
    Produced x → Assembled (x.addOperand (Operand.ofNative p).neg)
  | productNative {x : Integer} {t : NativeType} (p : Native t) :
    Produced x → Assembled (x.mulOperand (.ofNative p))
  | quotientNative {x q r : Integer} {t : NativeType} {p : Native t} :
    Produced x → x.divRemOperand (.ofNative p) = .ok (q, r) → Assembled q
  | remainderNative {x q r : Integer} {t : NativeType} {p : Native t} :
    Produced x → x.divRemOperand (.ofNative p) = .ok (q, r) → Assembled r

/-! ### Constructors -/

/-- What is mapped from a result is coherent when the map makes coherent integers. -/
theorem coherent_of_map {α ε : Type} {r : Except ε α} {g : α → Integer} {x : Integer}
    (keeps : ∀ a, (g a).Coherent) (h : r.map g = .ok x) : x.Coherent := by
  obtain ⟨a, -, rfl⟩ := Except.map_eq_ok_iff.1 h
  exact keeps a

theorem coherent_ofFloat {f : BinaryFloat.Format} {v : BinaryFloat} {x : Integer}
    (h : ofFloat f v = .ok x) : x.Coherent := by
  refine coherent_of_map ?_ h
  intro m
  exact coherent_make ..

theorem coherent_ofString {base : Nat} {s : String} {x : Integer} (h : ofString base s = .ok x) :
    x.Coherent := by
  refine coherent_of_map ?_ h
  intro m
  exact coherent_make ..

theorem coherent_ofBytes {base : Nat} {bytes : List UInt8} {x : Integer}
    (h : ofBytes? base bytes = some x) : x.Coherent := by
  obtain ⟨s, -, read⟩ := Option.bind_eq_some_iff.1 h
  exact coherent_ofString (Except.toOption_eq_some_iff.1 read)

theorem coherent_accept {r : Except Error Integer} {x : Integer} (keeps : ∀ y, r = .ok y → y.Coherent)
    (h : accept r = .ok x) : x.Coherent :=
  keeps x (Except.mapError_eq_ok_iff.1 h)

theorem coherent_ofDatum {d : Datum} {x : Integer} (h : ofDatum d = .ok x) : x.Coherent := by
  cases d with
  | text s => exact coherent_accept (fun y => coherent_ofString) h
  | character c => exact coherent_accept (fun y => coherent_ofString) h
  | native t p =>
    cases h
    exact coherent_ofNative p
  | float v => exact coherent_accept (fun y => coherent_ofFloat) h
  | boolean b => cases b <;> cases h
  | unit => cases h
  | bytes bs => cases h
  | sequence => cases h

/-- Sign and magnitude of a difference to a floating point value agree. -/
theorem subtractFloat_sign {f : BinaryFloat.Format} {as : Digits} {v : BinaryFloat}
    {d : Sign × Magnitude} (h : Digits.subtractFloat f as v = .ok d) :
    d.1 = .zero ↔ d.2.isZero = true := by
  rw [Digits.subtractFloat] at h
  split at h
  · obtain ⟨b, -, rfl⟩ := Except.map_eq_ok_iff.1 h
    rw [Magnitude.signed_eq_zero_iff]
    exact or_iff_left (by decide)
  · obtain ⟨b, -, rfl⟩ := Except.map_eq_ok_iff.1 h
    exact Digits.sign_subtract_eq_zero_iff ..

theorem coherent_subFloat {f : BinaryFloat.Format} {x z : Integer} {v : BinaryFloat}
    (h : x.subFloat f v = .ok z) : z.Coherent := by
  rw [subFloat] at h
  split at h
  next y outer hy =>
  have nonzero : outer ≠ .zero := by
    split at hy <;> cases hy <;> decide
  obtain ⟨d, hd, rfl⟩ := Except.map_eq_ok_iff.1 h
  rw [Coherent, Sign.mul_eq_zero_iff, or_iff_left nonzero]
  exact subtractFloat_sign hd

/-! ### Everything that is made -/

theorem Produced.coherent {x : Integer} (h : Produced x) : x.Coherent := by
  induction h with
  | zero => exact coherent_zero
  | one => exact coherent_one
  | make s ds => exact coherent_make ..
  | ofMagnitude m => exact coherent_make ..
  | ofNative p => exact coherent_ofNative p
  | ofFloat read => exact coherent_ofFloat read
  | ofString read => exact coherent_ofString read
  | ofBytes read => exact coherent_ofBytes read
  | ofDatum read => exact coherent_ofDatum read
  | ofNatural W n => exact coherent_make ..
  | ofNumber W z => exact coherent_make ..
  | operate _ _ result hx hy => exact coherent_operate hx hy result
  | subReusing r _ _ hx hy => exact coherent_subReusing r hx hy
  | operateNative _ result hx =>
    rw [operateNative_eq] at result
    exact coherent_operate hx (coherent_ofNative _) result
  | nativeOperate _ result hx =>
    rw [nativeOperate_eq _ _ hx] at result
    exact coherent_operate (coherent_ofNative _) hx result
  | quotient _ _ result hx hy => exact (coherent_divRemBy hx hy result).1
  | remainder _ _ result hx hy => exact (coherent_divRemBy hx hy result).2
  | neg _ hx => exact coherent_neg hx
  | abs _ hx => exact coherent_abs hx
  | signum _ _ => exact coherent_signum _
  | absSub _ _ hx hy => exact coherent_absSub hx hy
  | sum _ hxs => exact coherent_sum hxs
  | product _ hxs => exact coherent_product hxs
  | subFloat _ result _ => exact coherent_subFloat result

theorem Assembled.coherent {x : Integer} (h : Assembled x) : x.Coherent := by
  cases h with
  | zero => exact coherent_zero
  | one => exact coherent_one
  | sum hx hy => exact coherent_add hx.coherent hy.coherent
  | difference hx hy => exact coherent_sub hx.coherent hy.coherent
  | product hx hy => exact coherent_mul hx.coherent hy.coherent
  | quotient hx hy result => exact (coherent_divRemBy hx.coherent hy.coherent result).1
  | remainder hx hy result => exact (coherent_divRemBy hx.coherent hy.coherent result).2
  | abs hx => exact coherent_abs hx.coherent
  | subFloat _ result => exact coherent_subFloat result
  | sumNative p hx =>
    rw [addOperand_eq (names_ofNative p) (coherent_ofNative p)]
    exact coherent_add hx.coherent (coherent_ofNative p)
  | differenceNative p hx =>
    have hy := coherent_neg (coherent_ofNative p)
    rw [addOperand_eq (names_ofNative p).neg hy]
    exact coherent_add hx.coherent hy
  | productNative p hx =>
    rw [mulOperand_eq (names_ofNative p)]
    exact coherent_mul hx.coherent (coherent_ofNative p)
  | quotientNative hx result =>
    rw [divRemOperand_eq (names_ofNative _)] at result
    exact (coherent_divRemBy hx.coherent (coherent_ofNative _) result).1
  | remainderNative hx result =>
    rw [divRemOperand_eq (names_ofNative _)] at result
    exact (coherent_divRemBy hx.coherent (coherent_ofNative _) result).2

/-- Canonical form is an invariant of the public interface, and no caller assembles an integer whose
    sign and magnitude disagree. -/
theorem interface_canonical :
    (∀ x, Produced x → x.Canonical) ∧
      ∀ x, Assembled x → (x.sign = .zero ↔ x.magnitude.isZero = true) := by
  constructor
  · intro x made
    exact made.coherent.canonical
  · intro x made
    exact made.coherent

/-- An integer minus itself, and the sum that is assembled for it. -/
theorem interface_canonical_self_difference :
    (one - one).Canonical ∧ ((one - one).sign = .zero ↔ (one - one).magnitude.isZero = true) := by
  constructor
  · exact interface_canonical.1 _ (.operate .one .one (f := .sub) rfl)
  · exact interface_canonical.2 _ (.difference .one .one)

end Multiprecision.Integer
