import StepSignal.Cell
import StepSignal.Proofs.Exact

/-!
# Cells that are the same

The equality of the order of cells folds the two zeros and makes all missing numbers one. It is the
equality of exact cells: two cells are the same when they stand for the same exact cell. So it is an
equivalence, and keys can be told apart by what they stand for.
-/

namespace StepSignal

open Scalar

variable {α : Type} [Scalar α] [LawfulScalar α]

/-- The exact number that a scalar stands for, missing if the scalar is. -/
def exactly (x : α) : Exact := if isMissing x then .missing else .num (toRat x)

/-- The exact cell that a cell stands for. -/
def Cell.exactly : Cell α → Cell Exact
  | null => null
  | bool b => bool b
  | int n => int n
  | num x => num (StepSignal.exactly x)
  | text s => text s

/-- The exact cells that a key stands for. -/
def keyId (key : List (Cell α)) : List (Cell Exact) := key.map Cell.exactly

theorem exactly_eq_num_iff {x : α} {q : Rat} :
    exactly x = .num q ↔ isMissing x = false ∧ toRat x = q := by
  unfold exactly
  cases isMissing x <;> simp

theorem Scalar.eq_iff_exactly (x y : α) :
    eq x y = true ↔ exactly x = exactly y ∧ exactly x ≠ .missing := by
  rw [LawfulScalar.eq_iff]
  unfold exactly
  cases isMissing x <;> cases isMissing y <;> simp

theorem Scalar.order_eq_iff (a b : α) : order a b = .eq ↔ exactly a = exactly b := by
  unfold order exactly
  rcases ha : isMissing a with - | -
  · rcases hb : isMissing b with - | -
    · rw [lt_eq ha hb, lt_eq hb ha]
      rcases lt_trichotomy (toRat a) (toRat b) with h | h | h
      · simp [h, h.ne]
      · simp [h]
      · simp [h, h.not_gt, h.ne']
    · rw [lt_of_isMissing (.inr hb), lt_of_isMissing (.inl hb)]
      exact iff_of_false (by decide) (nomatch ·)
  · rw [lt_of_isMissing (.inl ha), lt_of_isMissing (.inr ha)]
    rcases isMissing b
    · exact iff_of_false (by decide) (nomatch ·)
    · exact iff_of_true rfl rfl

/-- Samples are the same when they stand for the same exact number. -/
theorem Scalar.same_iff (a b : α) : same a b = true ↔ exactly a = exactly b := by
  rw [same, Bool.or_eq_true, eq_iff_exactly]
  unfold exactly
  cases isMissing a <;> cases isMissing b <;> simp

theorem Cell.same_iff (a b : Cell α) : Cell.same a b = true ↔ a.exactly = b.exactly := by
  unfold Cell.same
  rw [Ordering.isEq_iff_eq_eq]
  cases a <;> cases b <;> simp [Cell.order, Cell.exactly, Cell.rank, order_eq_iff]

theorem Cell.sameAll_iff (as bs : List (Cell α)) :
    Cell.sameAll as bs = true ↔ keyId as = keyId bs := by
  unfold Cell.sameAll
  induction as generalizing bs with
  | nil => cases bs <;> simp [Cell.orderAll, keyId]
  | cons a as ih =>
    rcases bs with - | ⟨b, bs⟩
    · simp [Cell.orderAll, keyId]
    · have hab := Cell.same_iff a b
      have has := ih bs
      unfold Cell.same at hab
      simp only [Cell.orderAll, keyId, List.map_cons, List.cons.injEq] at *
      rw [← hab, ← has]
      -- the first cells that differ decide, so all of them have to be the same
      cases Cell.order a b <;> simp [Ordering.then]

/-- An exact cell stands for itself. -/
theorem Cell.exactly_exact (c : Cell Exact) : c.exactly = c := by
  rcases c with - | b | n | (- | q) | s <;> rfl

/-- Over exact scalars, cells are the same only if they are equal. -/
theorem Cell.sameAll_iff_eq (as bs : List (Cell Exact)) :
    Cell.sameAll as bs = true ↔ as = bs := by
  have hid : ∀ key : List (Cell Exact), keyId key = key := fun key => by
    rw [keyId, funext Cell.exactly_exact, List.map_id']
  rw [Cell.sameAll_iff, hid, hid]

end StepSignal
