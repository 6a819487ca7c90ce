import StepSignal.Proofs.Alignment.Peak
import StepSignal.Proofs.Alignment.Resampling

/-!
# A series aligned with itself

What a series covers overlaps with itself in all of it, and on the common grid both sides have the same
values. These are most alike at the lag zero, which is kept in a tie, as it is the smallest of all
lags. A lag of zero is not capped, and moving by it leaves every value in its place.
-/

namespace StepSignal

open Exact Scalar

/-! ## Moving by zero -/

section Unmoved

variable {α : Type} [Scalar α]

theorem capShift_zero (period : α) (maxShift : Option α) : capShift period maxShift 0 = 0 := by
  cases maxShift with
  | none => rfl
  | some limit => simp [capShift]

theorem shiftValues_zero (values : List α) : shiftValues values 0 = values := by
  simp [shiftValues]

/-- A series whose values on the grid are most like themselves at the lag zero is not moved. -/
theorem Series.alignedOn_self [Correlates α] {s : Series α} {grid : TimeGrid α}
    (h : bestLag (s.resample grid.points).values (s.resample grid.points).values = 0)
    (maxShift : Option α) (period : α) : s.alignedOn s maxShift period grid =
      ⟨s.resample grid.points, s.resample grid.points, 0, 0, period, grid.step⟩ := by
  unfold Series.alignedOn
  simp only [h, capShift_zero, shiftValues_zero, Series.withValues_values]

end Unmoved

/-! ## Overlapping with itself -/

/-- What a series and itself both cover is what the series covers. -/
theorem Series.Valid.exists_overlap_self {α : Type} [Scalar α] [LawfulScalar α] {s : Series α}
    (hs : s.Valid) (hlength : 1 ≤ s.length) : ∃ first last, s.overlap s = .ok (first, last) := by
  have hne : s.times ≠ [] := by
    apply List.ne_nil_of_length_pos
    rwa [Series.times, Stamped.length_times]
  have hfirst := List.head?_eq_some_head hne
  have hlast := List.getLast?_eq_some_getLast hne
  have hforward : lt (s.times.getLast hne) (s.times.head hne) = false := by
    rw [lt_eq (Ordered.isMissing_of_mem hs (List.getLast_mem hne))
      (Ordered.isMissing_of_mem hs (List.head_mem hne)), decide_eq_false_iff_not, not_lt]
    rw [List.getLast?_eq_getElem?] at hlast
    exact Ordered.first_le hs hfirst hlast
  refine ⟨s.times.head hne, s.times.getLast hne, ?_⟩
  simp [Series.overlap, hfirst, hlast, Scalar.max, Scalar.min, hforward]

/-! ## Alignment -/

section Exact

variable {s : Series Exact} {maxShift : Option Exact}

/-- **A series aligned with itself does not move.** Every complete series of two samples or more is
aligned with itself, by a shift of zero before and after capping, and on the grid it is what it is as
the reference. -/
theorem Series.align_self (hs : s.Valid) (hlength : 2 ≤ s.length) (hcomplete : s.hasMissing = false)
    (hlimit : checkMaxShift maxShift = .ok ()) :
    ∃ out, s.align s maxShift = .ok out ∧ out.correlationShift = 0 ∧ out.shift = 0 ∧
      out.aligned = out.reference ∧ out.reference = s.resample out.reference.times := by
  obtain ⟨first, last, hoverlap⟩ := hs.exists_overlap_self (by omega)
  obtain ⟨period, grid, hparts⟩ :=
    hs.exists_alignsOn hs hlimit hlength hlength hcomplete hcomplete hoverlap
  have hvalues := (hparts.complete hs hs).1
  rw [Series.hasMissing, List.any_eq_false] at hvalues
  obtain ⟨xs, hxs⟩ := exists_eq_exact fun v hv => Bool.eq_false_iff.mpr (hvalues v hv)
  have hunmoved := Series.alignedOn_self (hxs ▸ bestLag_self xs) maxShift period
  have hout := Series.align_eq_ok_iff.mpr ⟨first, last, period, grid, hparts, rfl⟩
  rw [hunmoved] at hout
  exact ⟨_, hout, rfl, rfl, rfl, by rw [Series.times_resample]⟩

/-- Values of both signs at uneven distances. -/
theorem Series.align_self_of_pulse :
    let s : Series Exact := ⟨"a", [⟨num 0, num (-2)⟩, ⟨num 2, num 1⟩, ⟨num 5, num (-3)⟩]⟩
    s.Valid ∧ 2 ≤ s.length ∧ s.hasMissing = false ∧ checkMaxShift (some (num 3)) = .ok () ∧
      ∃ out, s.align s (some (num 3)) = .ok out ∧ out.correlationShift = 0 ∧ out.shift = 0 ∧
        out.aligned = out.reference ∧ out.reference = s.resample out.reference.times := by
  intro s
  have hs : s.Valid := checkIndex_eq_ok.mp rfl
  have hlength : 2 ≤ s.length := by decide
  have hcomplete : s.hasMissing = false := rfl
  have hlimit : checkMaxShift (some (num 3)) = .ok () := by decide +kernel
  exact ⟨hs, hlength, hcomplete, hlimit, Series.align_self hs hlength hcomplete hlimit⟩

end Exact

end StepSignal
