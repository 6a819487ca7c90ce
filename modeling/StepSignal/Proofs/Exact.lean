import StepSignal.Proofs.Lawful
import StepSignal.Scalar.Exact

/-!
# Arithmetic on exact scalars

What the scalar operations are on two rational numbers, and what folding a list of numbers with them
is. With these equations a statement about exact scalars becomes one about rationals.
-/

namespace StepSignal
namespace Exact

@[simp] theorem lt_num (a b : Rat) : Scalar.lt (num a) (num b) = decide (a < b) := rfl

@[simp] theorem eq_num (a b : Rat) : Scalar.eq (num a) (num b) = decide (a = b) := rfl

@[simp] theorem isFinite_num (a : Rat) : Scalar.isFinite (num a) = true := rfl

@[simp] theorem isMissing_num (a : Rat) : Scalar.isMissing (num a) = false := rfl

@[simp] theorem num_add_num (a b : Rat) : num a + num b = num (a + b) := rfl

@[simp] theorem num_sub_num (a b : Rat) : num a - num b = num (a - b) := rfl

@[simp] theorem num_mul_num (a b : Rat) : num a * num b = num (a * b) := rfl

theorem num_div_num (a : Rat) {b : Rat} (hb : b ≠ 0) : num a / num b = num (a / b) := if_neg hb

@[simp] theorem ofInt_eq (n : Int) : (Scalar.ofInt n : Exact) = num n := rfl

@[simp] theorem le_num (a b : Rat) : Scalar.le (num a) (num b) = decide (a ≤ b) := by
  simp only [Scalar.le, lt_num, eq_num, ← Bool.decide_or, le_iff_lt_or_eq]

@[simp] theorem min_num (a b : Rat) : Scalar.min (num a) (num b) = num (min a b) := by
  unfold Scalar.min
  rcases lt_or_ge a b with h | h
  · simp [h, min_eq_left h.le]
  · simp [not_lt.mpr h, min_eq_right h]

@[simp] theorem max_num (a b : Rat) : Scalar.max (num a) (num b) = num (max a b) := by
  unfold Scalar.max
  rcases lt_or_ge b a with h | h
  · simp [h, max_eq_left h.le]
  · simp [not_lt.mpr h, max_eq_right h]

@[simp] theorem zero_eq : (Scalar.zero : Exact) = num 0 := rfl

@[simp] theorem abs_num (a : Rat) : Scalar.abs (num a) = num |a| := by
  unfold Scalar.abs
  rcases lt_or_ge a 0 with h | h
  · simp [h, abs_of_neg h]
  · simp [not_lt.mpr h, abs_of_nonneg h]

@[simp] theorem missing_add (x : Exact) : .missing + x = (.missing : Exact) := rfl

@[simp] theorem add_missing (x : Exact) : x + .missing = (.missing : Exact) := by
  cases x <;> rfl

@[simp] theorem sub_missing (x : Exact) : x - .missing = (.missing : Exact) := by
  cases x <;> rfl

@[simp] theorem missing_div (x : Exact) : .missing / x = (.missing : Exact) := by
  cases x <;> rfl

protected theorem add_assoc (x y z : Exact) : x + y + z = x + (y + z) := by
  cases x <;> cases y <;> cases z <;> simp [Rat.add_assoc]

/-- Every exact scalar that is not missing is a number. -/
theorem eq_num_of_isMissing {x : Exact} (h : Scalar.isMissing x = false) : ∃ q, x = num q := by
  cases x with
  | missing => cases h
  | num q => exact ⟨q, rfl⟩

theorem eq_num_of_isFinite {x : Exact} (h : Scalar.isFinite x = true) : ∃ q, x = num q := by
  cases x with
  | missing => cases h
  | num q => exact ⟨q, rfl⟩

end Exact

open Exact in
/-- Exact scalars are ordered like the rational numbers that they are. -/
instance : LawfulScalar Exact where
  toRat
    | .missing => 0
    | .num q => q
  lt_iff a b := by cases a <;> cases b <;> simp [Scalar.lt, Scalar.isMissing, holds]
  eq_iff a b := by cases a <;> cases b <;> simp [Scalar.eq, Scalar.isMissing, holds]
  isMissing_of_isFinite a h := by
    obtain ⟨q, rfl⟩ := eq_num_of_isFinite h
    rfl
  isFinite_of_le_of_le a b c _ _ hb _ _ := by
    obtain ⟨q, rfl⟩ := eq_num_of_isMissing hb
    rfl
  isMissing_sub a b ha hb := by
    obtain ⟨p, rfl⟩ := eq_num_of_isFinite ha
    obtain ⟨q, rfl⟩ := eq_num_of_isFinite hb
    rfl
  sub_le_sub a b c d ha hb hc hd hac hdb := by
    obtain ⟨p, rfl⟩ := eq_num_of_isFinite ha
    obtain ⟨q, rfl⟩ := eq_num_of_isFinite hb
    obtain ⟨r, rfl⟩ := eq_num_of_isFinite hc
    obtain ⟨s, rfl⟩ := eq_num_of_isFinite hd
    exact sub_le_sub hac hdb

@[simp] theorem Exact.toRat_num (q : Rat) : LawfulScalar.toRat (Exact.num q) = q := rfl

/-! ## Lists of numbers -/

section Lists

open Exact

/-- A sequence of rational numbers as exact scalars. -/
def exact (xs : List Rat) : List Exact := xs.map .num

@[simp] theorem length_exact (xs : List Rat) : (exact xs).length = xs.length := List.length_map _

theorem exact_map {β : Type} (f : β → Rat) (xs : List β) :
    exact (xs.map f) = xs.map fun x => num (f x) :=
  List.map_map

theorem exact_rightpad (xs : List Rat) (size : Nat) :
    (exact xs).rightpad size Scalar.zero = exact (xs.rightpad size 0) := by
  simp [exact, List.rightpad]

theorem filter_exact (xs : List Rat) : (exact xs).filter (!Scalar.isMissing ·) = exact xs := by
  apply List.filter_eq_self.mpr
  intro x hx
  obtain ⟨q, -, rfl⟩ := List.mem_map.mp hx
  rfl

/-- Scalars of which none is missing are a sequence of rational numbers. -/
theorem exists_eq_exact {xs : List Exact} (h : ∀ x ∈ xs, Scalar.isMissing x = false) :
    ∃ qs, xs = exact qs := by
  induction xs with
  | nil => exact ⟨[], rfl⟩
  | cons x xs ih =>
    rw [List.forall_mem_cons] at h
    obtain ⟨q, rfl⟩ := eq_num_of_isMissing h.1
    obtain ⟨qs, rfl⟩ := ih h.2
    exact ⟨q :: qs, rfl⟩

/-- Folding exact numbers with an operation of the scalars is folding the rationals. -/
theorem foldl_exact {f : Exact → Exact → Exact} {g : Rat → Rat → Rat}
    (h : ∀ a b, f (num a) (num b) = num (g a b)) (c : Rat) (xs : List Rat) :
    (exact xs).foldl f (num c) = num (xs.foldl g c) := by
  induction xs generalizing c with
  | nil => rfl
  | cons x xs ih =>
    rw [List.foldl_cons, ← ih, ← h]
    rfl

/-- Exact sums do not depend on how their terms are grouped. -/
theorem sum_cons (x : Exact) (xs : List Exact) : Scalar.sum (x :: xs) = x + Scalar.sum xs := by
  have hassoc : Std.Associative fun x y : Exact => x + y := ⟨Exact.add_assoc⟩
  have hunit : Scalar.sumUnit + x = x + Scalar.sumUnit := by
    cases x <;> simp [Scalar.sumUnit]
  rw [Scalar.sum, Scalar.sum, List.foldl_cons, hunit]
  exact List.foldl_assoc

theorem sum_append (xs ys : List Exact) :
    Scalar.sum (xs ++ ys) = Scalar.sum xs + Scalar.sum ys := by
  induction xs with
  | nil =>
    have hunit : num 0 + Scalar.sum ys = Scalar.sum ys := by
      cases Scalar.sum ys <;> simp
    exact hunit.symm
  | cons x xs ih => rw [List.cons_append, sum_cons, sum_cons, ih, Exact.add_assoc]

theorem sum_exact (xs : List Rat) : Scalar.sum (exact xs) = num xs.sum := by
  induction xs with
  | nil => rfl
  | cons x xs ih =>
    show Scalar.sum (num x :: exact xs) = _
    rw [sum_cons, ih, num_add_num, List.sum_cons]

end Lists

end StepSignal
