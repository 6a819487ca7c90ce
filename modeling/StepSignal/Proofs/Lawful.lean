import Mathlib.Algebra.Order.Field.Rat
import Mathlib.Tactic.Linarith
import Mathlib.Tactic.Push
import StepSignal.Index

/-!
# Lawful scalars

Most of what is true of times depends on their order only. `LawfulScalar` says what the order of a
scalar type is: scalars stand for rational numbers, the missing value apart, and are compared as
these numbers are. Subtraction may round, but has to keep the order.

Statements about times are proved from these laws, once for exact and for binary numbers.
-/

namespace StepSignal

open Scalar

/-- A scalar type whose numbers are ordered like rational numbers. -/
class LawfulScalar (α : Type) [Scalar α] where
  /-- The number that a scalar stands for; an infinity stands for one that is larger than all
  others. -/
  toRat : α → Rat
  lt_iff : ∀ a b : α, lt a b = true ↔
    isMissing a = false ∧ isMissing b = false ∧ toRat a < toRat b
  eq_iff : ∀ a b : α, eq a b = true ↔
    isMissing a = false ∧ isMissing b = false ∧ toRat a = toRat b
  isMissing_of_isFinite : ∀ a : α, isFinite a = true → isMissing a = false
  isFinite_of_le_of_le : ∀ a b c : α, isFinite a = true → isFinite c = true →
    isMissing b = false → toRat a ≤ toRat b → toRat b ≤ toRat c → isFinite b = true
  isMissing_sub : ∀ a b : α, isFinite a = true → isFinite b = true → isMissing (a - b) = false
  sub_le_sub : ∀ a b c d : α, isFinite a = true → isFinite b = true → isFinite c = true →
    isFinite d = true → toRat a ≤ toRat c → toRat d ≤ toRat b → toRat (a - b) ≤ toRat (c - d)

namespace Scalar

variable {α : Type} [Scalar α] [LawfulScalar α] {a b c : α}

export LawfulScalar (toRat)

theorem lt_eq (ha : isMissing a = false) (hb : isMissing b = false) :
    lt a b = decide (toRat a < toRat b) :=
  Bool.eq_iff_iff.mpr (by simp [LawfulScalar.lt_iff, ha, hb])

theorem lt_of_isMissing (h : isMissing a = true ∨ isMissing b = true) : lt a b = false :=
  Bool.eq_false_iff.mpr fun hlt => by
    obtain ⟨ha, hb, -⟩ := (LawfulScalar.lt_iff a b).mp hlt
    simp [ha, hb] at h

theorem eq_eq (ha : isMissing a = false) (hb : isMissing b = false) :
    eq a b = decide (toRat a = toRat b) :=
  Bool.eq_iff_iff.mpr (by simp [LawfulScalar.eq_iff, ha, hb])

theorem le_eq (ha : isMissing a = false) (hb : isMissing b = false) :
    le a b = decide (toRat a ≤ toRat b) := by
  rw [le, lt_eq ha hb, eq_eq ha hb, ← Bool.decide_or]
  exact decide_eq_decide.mpr le_iff_lt_or_eq.symm

theorem le_iff (a b : α) : le a b = true ↔
    isMissing a = false ∧ isMissing b = false ∧ toRat a ≤ toRat b := by
  rw [le, Bool.or_eq_true, LawfulScalar.lt_iff, LawfulScalar.eq_iff, le_iff_lt_or_eq]
  tauto

theorem le_of_le_of_le (hab : le a b = true) (hbc : le b c = true) : le a c = true := by
  rw [le_iff] at hab hbc ⊢
  exact ⟨hab.1, hbc.2.1, hab.2.2.trans hbc.2.2⟩

theorem lt_eq_false_of_le (h : le a b = true) : lt b a = false := by
  obtain ⟨ha, hb, hle⟩ := (le_iff a b).mp h
  rw [lt_eq hb ha, decide_eq_false (not_lt.mpr hle)]

theorem lt_of_lt_le (hab : lt a b = true) (hbc : le b c = true) : lt a c = true := by
  rw [LawfulScalar.lt_iff] at hab ⊢
  rw [le_iff] at hbc
  exact ⟨hab.1, hbc.2.1, hab.2.2.trans_le hbc.2.2⟩

theorem le_eq_false_of_lt (h : lt a b = true) : le b a = false := by
  obtain ⟨ha, hb, hlt⟩ := (LawfulScalar.lt_iff a b).mp h
  rw [le_eq hb ha, decide_eq_false (not_le.mpr hlt)]

theorem lt_of_le_of_not_eq (hle : le a b = true) (hne : ¬ eq b a = true) : lt a b = true := by
  obtain ⟨ha, hb, hle⟩ := (le_iff a b).mp hle
  rw [LawfulScalar.lt_iff]
  exact ⟨ha, hb, lt_of_le_of_ne hle fun heq =>
    hne ((LawfulScalar.eq_iff b a).mpr ⟨hb, ha, heq.symm⟩)⟩

/-- Equal numbers equal the same numbers. -/
theorem eq_congr (h : eq a b = true) (c : α) : eq a c = eq b c := by
  obtain ⟨ha, hb, hab⟩ := (LawfulScalar.eq_iff a b).mp h
  rw [Bool.eq_iff_iff, LawfulScalar.eq_iff a c, LawfulScalar.eq_iff b c, ha, hb, hab]

/-- Of two numbers that are neither equal nor in order, the second is smaller. -/
theorem lt_of_not_lt (ha : isMissing a = false) (hb : isMissing b = false)
    (hne : ¬ eq a b = true) (hlt : ¬ lt a b = true) : lt b a = true := by
  rw [eq_eq ha hb, decide_eq_true_eq] at hne
  rw [lt_eq ha hb, decide_eq_true_eq] at hlt
  rw [lt_eq hb ha, decide_eq_true_eq]
  exact lt_of_le_of_ne (not_lt.mp hlt) (Ne.symm hne)

/-- The larger of two numbers. -/
theorem max_cases (ha : isMissing a = false) (hb : isMissing b = false) :
    (Scalar.max a b = a ∧ toRat b < toRat a) ∨ (Scalar.max a b = b ∧ toRat a ≤ toRat b) := by
  unfold Scalar.max
  rw [lt_eq hb ha, hb, Bool.or_false]
  by_cases h : toRat b < toRat a
  · exact .inl ⟨by simp [h], h⟩
  · exact .inr ⟨by simp [h], not_lt.mp h⟩

/-- The smaller of two numbers. -/
theorem min_cases (ha : isMissing a = false) (hb : isMissing b = false) :
    (Scalar.min a b = a ∧ toRat a < toRat b) ∨ (Scalar.min a b = b ∧ toRat b ≤ toRat a) := by
  unfold Scalar.min
  rw [lt_eq ha hb, hb, Bool.or_false]
  by_cases h : toRat a < toRat b
  · exact .inl ⟨by simp [h], h⟩
  · exact .inr ⟨by simp [h], not_lt.mp h⟩

theorem isMissing_max (ha : isMissing a = false) (hb : isMissing b = false) :
    isMissing (Scalar.max a b) = false := by
  rcases max_cases ha hb with ⟨heq, -⟩ | ⟨heq, -⟩ <;> rwa [heq]

theorem isMissing_min (ha : isMissing a = false) (hb : isMissing b = false) :
    isMissing (Scalar.min a b) = false := by
  rcases min_cases ha hb with ⟨heq, -⟩ | ⟨heq, -⟩ <;> rwa [heq]

theorem toRat_max (ha : isMissing a = false) (hb : isMissing b = false) :
    toRat (Scalar.max a b) = Max.max (toRat a) (toRat b) := by
  rcases max_cases ha hb with ⟨heq, hlt⟩ | ⟨heq, hle⟩
  · rw [heq, max_eq_left hlt.le]
  · rw [heq, max_eq_right hle]

/-- The larger of two numbers is at or below what both are at or below. -/
theorem max_le_eq (ha : isMissing a = false) (hb : isMissing b = false) (c : α) :
    le (Scalar.max a b) c = (le a c && le b c) := by
  rw [Bool.eq_iff_iff, Bool.and_eq_true, le_iff, le_iff, le_iff, isMissing_max ha hb,
    toRat_max ha hb, max_le_iff]
  tauto

theorem toRat_min (ha : isMissing a = false) (hb : isMissing b = false) :
    toRat (Scalar.min a b) = Min.min (toRat a) (toRat b) := by
  rcases min_cases ha hb with ⟨heq, hlt⟩ | ⟨heq, hle⟩
  · rw [heq, min_eq_left hlt.le]
  · rw [heq, min_eq_right hle]

/-- What is at or below two numbers is at or below the smaller of them. -/
theorem le_min_eq (ha : isMissing a = false) (hb : isMissing b = false) (c : α) :
    le c (Scalar.min a b) = (le c a && le c b) := by
  rw [Bool.eq_iff_iff, Bool.and_eq_true, le_iff, le_iff, le_iff, isMissing_min ha hb,
    toRat_min ha hb, le_min_iff]
  tauto

/-- What is below two numbers is below the smaller of them. -/
theorem lt_min_eq (ha : isMissing a = false) (hb : isMissing b = false) (c : α) :
    lt c (Scalar.min a b) = (lt c a && lt c b) := by
  rw [Bool.eq_iff_iff, Bool.and_eq_true, LawfulScalar.lt_iff, LawfulScalar.lt_iff,
    LawfulScalar.lt_iff, isMissing_min ha hb, toRat_min ha hb, lt_min_iff]
  tauto

end Scalar
end StepSignal
