import StepSignal.Proofs.Cell

/-!
# The order of cells

Cells of different kinds are in the order of their kinds, and cells of one kind in the order of their
values, where a missing number comes after all others. This is a total order up to cells that are the
same, and so is the order of keys, which is lexicographic.
-/

namespace StepSignal

open Scalar

variable {α : Type} [Scalar α] [LawfulScalar α]

/-! ## Scalars -/

theorem Scalar.order_swap (a b : α) : order a b = (order b a).swap := by
  unfold order
  rcases ha : isMissing a with - | -
  · rcases hb : isMissing b with - | -
    · rw [lt_eq ha hb, lt_eq hb ha]
      rcases lt_trichotomy (toRat a) (toRat b) with h | h | h
      · simp [h, h.not_gt]
      · simp [h]
      · simp [h, h.not_gt]
    · rw [lt_of_isMissing (.inr hb), lt_of_isMissing (.inl hb)]
      rfl
  · rw [lt_of_isMissing (.inl ha), lt_of_isMissing (.inr ha)]
    cases isMissing b <;> rfl

/-- What is missing comes last, and numbers are in the order of the numbers that they stand for. -/
theorem Scalar.order_isLE_iff (a b : α) : (order a b).isLE = true ↔
    isMissing b = true ∨ isMissing a = false ∧ toRat a ≤ toRat b := by
  unfold order
  rcases ha : isMissing a with - | -
  · rcases hb : isMissing b with - | -
    · rw [lt_eq ha hb, lt_eq hb ha]
      rcases lt_trichotomy (toRat a) (toRat b) with h | h | h
      · simp [h, h.le]
      · simp [h]
      · simp [h, h.not_gt]
    · rw [lt_of_isMissing (.inr hb), lt_of_isMissing (.inl hb)]
      exact iff_of_true rfl (.inl rfl)
  · rw [lt_of_isMissing (.inl ha), lt_of_isMissing (.inr ha)]
    cases isMissing b
    · exact iff_of_false (by decide) (by simp)
    · exact iff_of_true rfl (.inl rfl)

instance : Std.TransCmp (order : α → α → Ordering) where
  eq_swap := order_swap _ _
  isLE_trans {a b c} hab hbc := by
    rw [order_isLE_iff] at *
    rcases hbc with hc | ⟨hb, hle⟩
    · exact .inl hc
    · rcases hab with hb' | ⟨ha, hle'⟩
      · rw [hb] at hb'
        cases hb'
      · exact .inr ⟨ha, hle'.trans hle⟩

/-! ## Cells -/

namespace Cell

variable {a b c : Cell α}

omit [LawfulScalar α] in
/-- Cells of different kinds are compared by kind. -/
theorem order_of_rank_ne (h : a.rank ≠ b.rank) : order a b = compare a.rank b.rank := by
  cases a <;> cases b <;> first | rfl | exact absurd rfl h

omit [LawfulScalar α] in
theorem rank_le_of_order (h : (order a b).isLE = true) : a.rank ≤ b.rank := by
  by_contra hlt
  rw [order_of_rank_ne (by omega), compare_gt_iff_gt.mpr (not_le.mp hlt)] at h
  cases h

theorem order_swap (a b : Cell α) : order a b = (order b a).swap := by
  by_cases hrank : a.rank = b.rank
  · cases a <;> cases b <;> simp only [rank, Nat.reduceEqDiff] at hrank
    · rfl
    · exact @Std.OrientedCmp.eq_swap _ compare _ _ _
    · exact @Std.OrientedCmp.eq_swap _ compare _ _ _
    · exact Scalar.order_swap _ _
    · exact @Std.OrientedCmp.eq_swap _ compare _ _ _
  · rw [order_of_rank_ne hrank, order_of_rank_ne (Ne.symm hrank)]
    exact Std.OrientedCmp.eq_swap

/-- Cells of one kind are ordered by value. -/
theorem order_trans_of_rank (h : a.rank = b.rank) (h' : b.rank = c.rank)
    (hab : (order a b).isLE = true) (hbc : (order b c).isLE = true) : (order a c).isLE = true := by
  cases a <;> cases b <;> simp only [rank, Nat.reduceEqDiff] at h <;>
    cases c <;> simp only [rank, Nat.reduceEqDiff] at h'
  · rfl
  · exact @Std.TransCmp.isLE_trans _ compare _ _ _ _ hab hbc
  · exact @Std.TransCmp.isLE_trans _ compare _ _ _ _ hab hbc
  · exact @Std.TransCmp.isLE_trans _ Scalar.order _ _ _ _ hab hbc
  · exact @Std.TransCmp.isLE_trans _ compare _ _ _ _ hab hbc

instance : Std.TransCmp (order : Cell α → Cell α → Ordering) where
  eq_swap := order_swap _ _
  isLE_trans {a b c} hab hbc := by
    have hab' := rank_le_of_order hab
    have hbc' := rank_le_of_order hbc
    rcases (hab'.trans hbc').lt_or_eq with hlt | heq
    · rw [order_of_rank_ne hlt.ne, compare_lt_iff_lt.mpr hlt]
      rfl
    · exact order_trans_of_rank (by omega) (by omega) hab hbc

end Cell

/-! ## Keys -/

namespace Cell

omit [LawfulScalar α] in
theorem orderAll_eq_compareLex (as bs : List (Cell α)) :
    orderAll as bs = List.compareLex order as bs := by
  induction as generalizing bs with
  | nil => cases bs <;> rfl
  | cons a as ih =>
    rcases bs with - | ⟨b, bs⟩
    · rfl
    · rw [orderAll, List.compareLex_cons_cons, ih]

instance : Std.TransCmp (orderAll : List (Cell α) → List (Cell α) → Ordering) := by
  rw [show (orderAll : List (Cell α) → List (Cell α) → Ordering) = List.compareLex order from
    funext₂ orderAll_eq_compareLex]
  infer_instance

theorem orderAll_isLE_total (as bs : List (Cell α)) :
    ((orderAll as bs).isLE || (orderAll bs as).isLE) = true := by
  have hswap : orderAll bs as = (orderAll as bs).swap := Std.OrientedCmp.eq_swap
  rw [hswap]
  cases orderAll as bs <;> rfl

end Cell

end StepSignal
