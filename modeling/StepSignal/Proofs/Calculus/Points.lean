import Mathlib.Data.Set.List
import StepSignal.Calculus.Area
import StepSignal.Proofs.Exact
import StepSignal.Proofs.Index

/-!
# The samples that an area is taken over

Trapezoids and Simpson's rule pass over the samples that are missing. What is left of a valid series
of exact scalars are points with rational coordinates, from left to right.
-/

namespace StepSignal

open Exact Scalar

/-- The samples that are not missing. -/
def Series.present {α : Type} [Scalar α] (s : Series α) : List (Stamped α α) :=
  s.samples.filter fun row => !isMissing row.value

namespace Point

/-- A point with rational coordinates. -/
def exact (p : Point Rat) : Point Exact := ⟨num p.x, num p.y⟩

/-- The sample whose point it is. -/
def sample (p : Point Rat) : Stamped Exact Exact := ⟨num p.x, num p.y⟩

end Point

/-- Points whose abscissas are ordered are points from left to right. -/
theorem Ordered.pairwise_x {ps : List (Point Rat)} (h : Ordered (StepSignal.exact (ps.map (·.x)))) :
    ps.Pairwise fun p q => p.x < q.x := by
  have hbefore := h.pairwise
  rw [exact_map, List.pairwise_map] at hbefore
  exact hbefore

/-! ## Abscissas -/

section Abscissas

variable {α : Type} [Scalar α]

/-- The values that a series is looked at over, which are those of another series if there is one. -/
def Series.axis (y : Series α) : Option (Series α) → List α
  | none => y.times
  | some x => x.values

variable [LawfulScalar α]

theorem Scalar.eqAll_self {ts : List α} (h : ∀ t ∈ ts, isMissing t = false) :
    eqAll ts ts = true := by
  induction ts with
  | nil => rfl
  | cons t ts ih =>
    rw [List.forall_mem_cons] at h
    rw [eqAll, eq_eq h.1 h.1, ih h.2, decide_eq_true rfl, Bool.and_true]

/-- A series can be looked at over any series that has the same times. -/
theorem Series.Valid.abscissas_eq {y : Series α} {x : Option (Series α)} (hy : y.Valid)
    (hx : ∀ s ∈ x, s.times = y.times) : y.abscissas x = .ok (y.axis x) := by
  cases x with
  | none => rfl
  | some s =>
    have hsame : eqAll s.times y.times = true := by
      rw [hx s rfl]
      apply eqAll_self
      intro t ht
      exact Ordered.isMissing_of_mem hy ht
    rw [Series.abscissas, if_pos hsame]
    rfl

theorem Series.Valid.integral_eq {y : Series α} {x : Option (Series α)} (hy : y.Valid)
    (hx : ∀ s ∈ x, s.times = y.times) (region : Option SignRegion) (rule : Quadrature) :
    y.integral x region rule
      = .ok (rule.area (y.axis x) (y.values.map (SignRegion.clip region))) := by
  rw [Series.integral, hy.abscissas_eq hx]
  rfl

end Abscissas

/-! ## Points -/

/-- With no region to clip to, an area over the times is that of the values. -/
theorem Series.integral_times {α : Type} [Scalar α] (y : Series α) (rule : Quadrature) :
    y.integral none none rule = .ok (rule.area y.times y.values) := by
  have hclip : y.values.map (SignRegion.clip none) = y.values := List.map_id _
  rw [Series.integral, hclip]
  rfl

/-- The times of a valid series are there, so only a missing value makes a point missing. -/
theorem Series.Valid.presentPoints_eq {α : Type} [Scalar α] [LawfulScalar α] {s : Series α}
    (hs : s.Valid) :
    presentPoints s.times s.values = s.present.map fun row => ⟨row.time, row.value⟩ := by
  have hpoints : s.times.zipWith Point.mk s.values
      = s.samples.map fun row => ⟨row.time, row.value⟩ := by
    rw [Series.times, Stamped.times, Series.values, List.zipWith_map, List.zipWith_self]
  rw [presentPoints, hpoints, List.filter_map, Series.present]
  congr 1
  apply List.filter_congr
  intro row hrow
  have htime : isMissing row.time = false := Ordered.isMissing_of_mem hs (List.mem_map_of_mem hrow)
  simp [htime]

/-- The samples of a valid series that are not missing are points from left to right. -/
theorem Series.Valid.exists_points {s : Series Exact} (hs : s.Valid) :
    ∃ ps : List (Point Rat), s.present = ps.map Point.sample ∧ ps.Pairwise fun p q => p.x < q.x := by
  have hpoint : ∀ row ∈ s.present, row ∈ Set.range Point.sample := by
    intro row hrow
    have hkept := List.mem_filter.mp hrow
    obtain ⟨t, ht⟩ := eq_num_of_isFinite (hs.1 row.time (List.mem_map_of_mem hkept.1))
    obtain ⟨v, hv⟩ := eq_num_of_isMissing (by simpa using hkept.2)
    exact ⟨⟨t, v⟩, by rw [Point.sample, ← ht, ← hv]⟩
  obtain ⟨ps, hps⟩ : s.present ∈ Set.range (List.map Point.sample) := by
    rwa [Set.range_list_map]
  refine ⟨ps, hps.symm, ?_⟩
  have hbefore : s.present.Pairwise fun a b => Before a.time b.time :=
    (List.pairwise_map.mp (Ordered.pairwise hs)).filter _
  rw [← hps, List.pairwise_map] at hbefore
  exact hbefore

end StepSignal
