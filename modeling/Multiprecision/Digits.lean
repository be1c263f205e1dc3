import Multiprecision.Digit

/-! Lists of digits, the least significant first, and the natural numbers they denote.
    A list may carry zeros at the top; `trim` drops them, and `normalize` also writes zero as the
    one digit `0`. Both keep the value. `compare` orders two lists by value, whatever zeros they
    carry. -/

namespace Multiprecision

/-- Digits, the least significant first. -/
abbrev Digits := List Digit

namespace Digits

/-- The natural number that the digits denote. -/
def value : Digits → Nat
  | [] => 0
  | d :: ds => d.toNat + Digit.base * value ds

/-- The weight of the digit in a place. -/
def weight (place : Nat) : Nat := Nat.pow Digit.base place

/-- The digits without the zeros at the top. -/
def trim : Digits → Digits
  | [] => []
  | d :: ds =>
    match trim ds with
    | [] => if d = 0 then [] else [d]
    | e :: es => d :: e :: es

/-- The digits without the zeros at the top, and the digit `0` for none. -/
def normalize (ds : Digits) : Digits :=
  match trim ds with
  | [] => [0]
  | e :: es => e :: es

/-- Digits in normal form: at least one, and no zero at the top except in the list `[0]`. -/
def Normal (ds : Digits) : Prop :=
  ds ≠ [] ∧ (ds.getLast? = some 0 → ds = [0])

instance (ds : Digits) : Decidable (Normal ds) :=
  inferInstanceAs (Decidable (_ ∧ _))

/-- Whether every digit is zero. -/
def isZero (ds : Digits) : Bool := (trim ds).isEmpty

/-- The order of two lists of one length, decided by the highest place where they differ. -/
def compareFromTop : Digits → Digits → Ordering
  | a :: as, b :: bs => (compareFromTop as bs).then (Ord.compare a b)
  | [], [] => .eq
  | [], _ :: _ => .lt
  | _ :: _, [] => .gt

/-- The order of two lists by value: the longer is larger once the zeros at the top are gone. -/
def compare (as bs : Digits) : Ordering :=
  (Ord.compare (trim as).length (trim bs).length).then (compareFromTop (trim as) (trim bs))

/-- The digits in the places `lo` to `hi - 1`. -/
def range (ds : Digits) (lo hi : Nat) : Digits := (ds.take hi).drop lo

/-- Exactly `n` digits: zeros are added at the top, or the top digits are cut off. -/
def resize (ds : Digits) (n : Nat) : Digits := (ds ++ List.replicate (n - ds.length) 0).take n

@[simp] theorem value_nil : value [] = 0 := rfl

@[simp] theorem value_cons (d : Digit) (ds : Digits) :
    value (d :: ds) = d.toNat + Digit.base * value ds := rfl

@[simp] theorem weight_zero : weight 0 = 1 := rfl

theorem weight_succ (n : Nat) : weight (n + 1) = Digit.base * weight n := Nat.mul_comm ..

theorem weight_mono {m n : Nat} (h : m ≤ n) : weight m ≤ weight n :=
  Nat.pow_le_pow_right (by decide) h

theorem value_append (as bs : Digits) :
    value (as ++ bs) = value as + weight as.length * value bs := by
  induction as with
  | nil => simp
  | cons a as ih => simp [ih, weight_succ, Nat.mul_add, Nat.mul_assoc, Nat.add_assoc]

theorem value_lt (ds : Digits) : value ds < weight ds.length := by
  induction ds with
  | nil => simp
  | cons d ds ih =>
    have hd := d.toNat_lt
    simp only [value_cons, List.length_cons, weight_succ, Digit.base] at ih ⊢
    omega

@[simp] theorem value_trim (ds : Digits) : value (trim ds) = value ds := by
  induction ds with
  | nil => rfl
  | cons d ds ih =>
    rw [trim]
    split
    · next h =>
      have h0 : value ds = 0 := by rw [← ih, h]; rfl
      split <;> simp_all
    · next h => rw [h] at ih; simp [← ih]

@[simp] theorem value_normalize (ds : Digits) : value (normalize ds) = value ds := by
  rw [← value_trim ds, normalize]
  split
  · next h => rw [h]; rfl
  · next h => rw [h]

/-- A trimmed list has no zero at the top. -/
theorem getLast?_trim (ds : Digits) : (trim ds).getLast? ≠ some 0 := by
  induction ds with
  | nil => simp [trim]
  | cons d ds ih =>
    rw [trim]
    split
    · split <;> simp_all
    · next h => rw [h] at ih; simpa using ih

theorem getLast?_of_value_eq_zero {ds : Digits} (hne : ds ≠ []) (h : value ds = 0) :
    ds.getLast? = some 0 := by
  induction ds with
  | nil => exact absurd rfl hne
  | cons d ds ih =>
    simp only [value_cons, Digit.base] at h
    cases ds with
    | nil => simpa using UInt64.toNat_inj.1 (by simp at h ⊢; omega)
    | cons e es => simpa using ih (by simp) (by omega)

/-- All digits are zero exactly when the value is. -/
theorem isZero_iff (ds : Digits) : isZero ds = true ↔ value ds = 0 := by
  rw [isZero, List.isEmpty_iff, ← value_trim ds]
  refine ⟨fun h => by rw [h]; rfl, fun h => ?_⟩
  refine Classical.byContradiction fun hne => ?_
  exact getLast?_trim ds (getLast?_of_value_eq_zero hne h)

theorem normal_normalize (ds : Digits) : Normal (normalize ds) := by
  have h := getLast?_trim ds
  rw [normalize]
  split
  · exact ⟨by simp, fun _ => rfl⟩
  · next e => rw [e] at h; exact ⟨by simp, fun hz => absurd hz h⟩

end Digits

end Multiprecision
