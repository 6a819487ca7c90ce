import Mathlib.Data.Finset.Max
import StepSignal.Proofs.Calculus.Strips
import StepSignal.Proofs.Calculus.Weights
import StepSignal.Proofs.Series

/-!
# The mean of a complete series

A mean divides an area by the distance from the first sample to the last. When no sample is missing,
the area of a constant is the constant times this distance, so that the mean is a weighted average:
bounds of the samples bound the mean, and it moves and scales with them.
-/

namespace StepSignal

open Exact

/-! ## The extent of increasing times -/

section Extent

variable {a : Rat} {as : List Rat}

theorem foldl_max_increasing (h : (a :: as).Pairwise (· < ·)) : as.foldl max a = as.getLastD a := by
  induction as generalizing a with
  | nil => rfl
  | cons b as ih =>
    obtain ⟨hab, has⟩ := List.pairwise_cons.mp h
    rw [List.foldl_cons, max_eq_right (hab b List.mem_cons_self).le, List.getLastD_cons, ih has]

theorem foldl_min_increasing (h : (a :: as).Pairwise (· < ·)) : as.foldl min a = a := by
  induction as with
  | nil => rfl
  | cons b as ih =>
    have hab : a < b := (List.pairwise_cons.mp h).1 b List.mem_cons_self
    have has : (a :: as).Pairwise (· < ·) := h.sublist ((List.sublist_cons_self b as).cons_cons a)
    rw [List.foldl_cons, min_eq_left hab.le, ih has]

/-- Increasing times extend from the first of them to the last. -/
theorem extent_increasing (h : (a :: as).Pairwise (· < ·)) :
    extent (exact (a :: as)) = num (as.getLastD a - a) := by
  rw [extent, filter_exact]
  show (exact as).foldl Scalar.max (num a) - (exact as).foldl Scalar.min (num a) = _
  rw [foldl_exact max_num, foldl_exact min_num, foldl_max_increasing h, foldl_min_increasing h]
  rfl

theorem extent_points {p : Point Rat} {rest : List (Point Rat)}
    (h : (p :: rest).Pairwise fun p q => p.x < q.x) :
    extent (exact ((p :: rest).map (·.x))) = num ((rest.getLastD p).x - p.x) := by
  rw [List.map_cons, extent_increasing (List.pairwise_map.mpr h), List.getLastD_map]

end Extent

/-! ## Replaced values -/

section Replaced

variable {p : Point Rat} {rest : List (Point Rat)} {rule : Quadrature} {height : Rat → Rat → Rat}

theorem exact_map_x (f : Rat → Rat) (ps : List (Point Rat)) :
    exact ((ps.map (Point.map f)).map (·.x)) = exact (ps.map (·.x)) := by
  rw [List.map_map]
  rfl

theorem exact_map_y (f : Rat → Rat) (ps : List (Point Rat)) :
    exact ((ps.map (Point.map f)).map (·.y)) = (exact (ps.map (·.y))).map (Exact.map f) := by
  simp only [exact, List.map_map]
  rfl

/-- The weights of a rule that adds up strips keep to the bounds of what the values are replaced by. -/
theorem Quadrature.Strips.weightedSum_between (h : rule.Strips height) {shares : List Share}
    (harea : ∀ f, rule.area (exact ((p :: rest).map (·.x)))
      ((exact ((p :: rest).map (·.y))).map (Exact.map f)) = num (weightedSum shares f))
    (hx : (p :: rest).Pairwise fun p q => p.x < q.x) {f : Rat → Rat} {low high : Rat}
    (hbounds : ∀ q ∈ p :: rest, low ≤ f q.y ∧ f q.y ≤ high) :
    low * ((rest.getLastD p).x - p.x) ≤ weightedSum shares f ∧
      weightedSum shares f ≤ high * ((rest.getLastD p).x - p.x) := by
  have hsum : weightedSum shares f = (stripAreas height ((p :: rest).map (Point.map f))).sum := by
    have hstrips := h.area_eq ((p :: rest).map (Point.map f))
    rw [exact_map_x, exact_map_y] at hstrips
    exact Exact.num.inj ((harea f).symm.trans hstrips)
  have hreplaced : ∀ r ∈ (p :: rest).map (Point.map f), low ≤ r.y ∧ r.y ≤ high :=
    List.forall_mem_map.mpr hbounds
  have hincreasing : ((p :: rest).map (Point.map f)).Pairwise fun p q => p.x < q.x :=
    List.pairwise_map.mpr hx
  have hbetween := h.sum_between hincreasing hreplaced
  rw [List.getLastD_map] at hbetween
  rw [hsum]
  exact hbetween

end Replaced

/-! ## Averages -/

/-- A series with each value replaced by another one. -/
def Series.mapValues (f : Rat → Rat) (s : Series Exact) : Series Exact :=
  s.withValues (s.values.map (Exact.map f))

namespace Series

variable {s : Series Exact} {f : Rat → Rat} {rule : Quadrature}

theorem times_mapValues : (s.mapValues f).times = s.times :=
  times_withValues (by rw [List.length_map, length_values]; rfl)

theorem values_mapValues : (s.mapValues f).values = s.values.map (Exact.map f) :=
  values_withValues (by rw [List.length_map, length_values]; rfl)

theorem mapValues_id (s : Series Exact) : s.mapValues id = s := by
  rw [mapValues, Exact.map_id, List.map_id, withValues_values]

/-- The mean of a series by some rule is an average of its samples by some weights, whatever the
samples are replaced by: it keeps to their bounds. -/
structure AveragedBy (s : Series Exact) (rule : Quadrature) (shares : List Share) (width : Rat) :
    Prop where
  width_pos : 0 < width
  mean_eq : ∀ f, (s.mapValues f).mean none none rule = .ok (num (weightedSum shares f / width))
  between : ∀ (f : Rat → Rat) (low high : Rat), (∀ v, num v ∈ s.values → low ≤ f v ∧ f v ≤ high) →
    low * width ≤ weightedSum shares f ∧ weightedSum shares f ≤ high * width

/-- The points of a complete series, from left to right. -/
theorem Valid.exists_complete (hs : s.Valid) (hcomplete : s.hasMissing = false) :
    ∃ ps : List (Point Rat), s.times = exact (ps.map (·.x)) ∧ s.values = exact (ps.map (·.y)) ∧
      ps.Pairwise fun p q => p.x < q.x := by
  have hlength : s.times.length = s.values.length := by
    rw [length_times, length_values]
  obtain ⟨ps, hx, hy⟩ := exists_points_of_complete hlength
    (fun _ ht => Ordered.isMissing_of_mem hs ht) fun _ hv => isMissing_of_mem_values hcomplete hv
  refine ⟨ps, hx, hy, Ordered.pairwise_x ?_⟩
  rw [← hx]
  exact hs

/-- Every rule but Simpson's averages a complete series. -/
theorem Valid.exists_averagedBy (hs : s.Valid) (hcomplete : s.hasMissing = false)
    (htwo : 2 ≤ s.length) (hrule : rule ≠ .simpson) :
    ∃ shares width, s.AveragedBy rule shares width := by
  obtain ⟨ps, htimes, hvalues, hincreasing⟩ := hs.exists_complete hcomplete
  obtain ⟨height, hstrips⟩ := Quadrature.exists_strips hrule
  obtain ⟨shares, harea⟩ := rule.weighs_area s.times s.values fun hsimpson => absurd hsimpson hrule
  have hlength : ps.length = s.length := by
    rw [← length_times, htimes, length_exact, List.length_map]
  rcases ps with - | ⟨p, - | ⟨q, rest⟩⟩
  · simp only [List.length_nil] at hlength
    omega
  · simp only [List.length_cons, List.length_nil] at hlength
    omega
  have hpositive : 0 < ((q :: rest).getLastD p).x - p.x := by
    rw [List.getLastD_cons]
    exact sub_pos.mpr ((List.pairwise_cons.mp hincreasing).1 _ List.getLastD_mem_cons)
  refine ⟨shares, ((q :: rest).getLastD p).x - p.x, hpositive, ?_, ?_⟩
  · intro f
    have hintegral : (s.mapValues f).integral none none rule = .ok (num (weightedSum shares f)) := by
      rw [integral_times, times_mapValues, values_mapValues]
      exact congrArg Except.ok (harea f)
    rw [Series.mean, hintegral, ok_bind]
    show Except.ok (num (weightedSum shares f) / extent (s.mapValues f).times) = _
    rw [times_mapValues, htimes, extent_points hincreasing, num_div_num _ hpositive.ne']
  · intro f low high hbounds
    rw [htimes, hvalues] at harea
    apply hstrips.weightedSum_between harea hincreasing
    intro r hr
    apply hbounds
    rw [hvalues]
    exact List.mem_map_of_mem (List.mem_map_of_mem hr)

/-- A complete series that has a sample has a smallest and a largest one. -/
theorem exists_extremes (hcomplete : s.hasMissing = false) (hsome : 0 < s.length) :
    ∃ least greatest : Rat, IsLeast {v | num v ∈ s.values} least ∧
      IsGreatest {v | num v ∈ s.values} greatest := by
  obtain ⟨vs, hvs⟩ := exists_eq_exact fun _ hv => isMissing_of_mem_values hcomplete hv
  have hvalues : {v | num v ∈ s.values} = (vs.toFinset : Set Rat) := by
    ext v
    simp [hvs, exact]
  have hnonempty : vs.toFinset.Nonempty := by
    rw [← length_values, hvs, length_exact, List.length_pos_iff] at hsome
    exact List.toFinset_nonempty_iff vs |>.mpr hsome
  rw [hvalues]
  exact ⟨_, _, vs.toFinset.isLeast_min' hnonempty, vs.toFinset.isGreatest_max' hnonempty⟩

namespace AveragedBy

variable {shares : List Share} {width : Rat}

theorem mean_id (h : s.AveragedBy rule shares width) :
    s.mean none none rule = .ok (num (weightedSum shares id / width)) := by
  have hmean := h.mean_eq id
  rwa [mapValues_id] at hmean

/-- What bounds the samples bounds the mean. -/
theorem mean_mem (h : s.AveragedBy rule shares width) {low high : Rat}
    (hbounds : ∀ v, num v ∈ s.values → low ≤ v ∧ v ≤ high) :
    ∃ mean, s.mean none none rule = .ok (num mean) ∧ low ≤ mean ∧ mean ≤ high := by
  obtain ⟨hlow, hhigh⟩ := h.between id low high hbounds
  exact ⟨_, h.mean_id, (le_div_iff₀ h.width_pos).mpr hlow, (div_le_iff₀ h.width_pos).mpr hhigh⟩

/-- A sum of equal numbers is the number times the sum of all weights. -/
theorem weightedSum_const (h : s.AveragedBy rule shares width) (c : Rat) :
    weightedSum shares (fun _ => c) = c * width := by
  obtain ⟨hlow, hhigh⟩ := h.between (fun _ => c) c c fun _ _ => ⟨le_rfl, le_rfl⟩
  exact le_antisymm hhigh hlow

theorem mean_add (h : s.AveragedBy rule shares width) {mean : Rat}
    (hmean : s.mean none none rule = .ok (num mean)) (c : Rat) :
    (s.withValues (s.values.map (· + num c))).mean none none rule = .ok (num (mean + c)) := by
  have hadd : (fun v : Exact => v + num c) = Exact.map fun v => v + c := by
    funext v
    cases v <;> rfl
  obtain rfl : mean = weightedSum shares id / width :=
    Exact.num.inj (Except.ok.inj (hmean.symm.trans h.mean_id))
  rw [hadd]
  show (s.mapValues fun v => v + c).mean none none rule = _
  rw [h.mean_eq, weightedSum_add, h.weightedSum_const, add_div,
    mul_div_cancel_right₀ c h.width_pos.ne']
  rfl

theorem mean_mul (h : s.AveragedBy rule shares width) {mean : Rat}
    (hmean : s.mean none none rule = .ok (num mean)) (c : Rat) :
    (s.withValues (s.values.map (· * num c))).mean none none rule = .ok (num (mean * c)) := by
  have hmul : (fun v : Exact => v * num c) = Exact.map fun v => v * c := by
    funext v
    cases v <;> rfl
  obtain rfl : mean = weightedSum shares id / width :=
    Exact.num.inj (Except.ok.inj (hmean.symm.trans h.mean_id))
  rw [hmul]
  show (s.mapValues fun v => v * c).mean none none rule = _
  rw [h.mean_eq, weightedSum_mul, mul_div_right_comm]
  rfl

end AveragedBy

/-- **The mean of a complete signal lies between its extremes.** It moves and scales with the
samples. -/
theorem mean_between (hs : s.Valid) (hcomplete : s.hasMissing = false) (htwo : 2 ≤ s.length)
    (hrule : rule ≠ .simpson) :
    ∃ least greatest mean : Rat,
      IsLeast {v | num v ∈ s.values} least ∧ IsGreatest {v | num v ∈ s.values} greatest ∧
      s.mean none none rule = .ok (num mean) ∧ least ≤ mean ∧ mean ≤ greatest ∧
      ∀ c, (s.withValues (s.values.map (· + num c))).mean none none rule = .ok (num (mean + c)) ∧
        (s.withValues (s.values.map (· * num c))).mean none none rule = .ok (num (mean * c)) := by
  obtain ⟨least, greatest, hleast, hgreatest⟩ := exists_extremes hcomplete (by omega)
  obtain ⟨shares, width, haverage⟩ := hs.exists_averagedBy hcomplete htwo hrule
  obtain ⟨mean, hmean, hlow, hhigh⟩ :=
    haverage.mean_mem fun v hv => ⟨hleast.2 hv, hgreatest.2 hv⟩
  refine ⟨least, greatest, mean, hleast, hgreatest, hmean, hlow, hhigh, ?_⟩
  intro c
  exact ⟨haverage.mean_add hmean c, haverage.mean_mul hmean c⟩

/-- Four samples at uneven distances. -/
theorem mean_between_of_four :
    let s : Series Exact :=
      ⟨"s", [⟨num 0, num 2⟩, ⟨num 1, num 5⟩, ⟨num 4, num (-1)⟩, ⟨num 6, num 3⟩]⟩
    (s.Valid ∧ s.hasMissing = false ∧ 2 ≤ s.length ∧ Quadrature.trapezoids ≠ .simpson) ∧
      ∃ least greatest mean : Rat,
        IsLeast {v | num v ∈ s.values} least ∧ IsGreatest {v | num v ∈ s.values} greatest ∧
        s.mean none none .trapezoids = .ok (num mean) ∧ least ≤ mean ∧ mean ≤ greatest ∧
        ∀ c,
          (s.withValues (s.values.map (· + num c))).mean none none .trapezoids
            = .ok (num (mean + c)) ∧
          (s.withValues (s.values.map (· * num c))).mean none none .trapezoids
            = .ok (num (mean * c)) := by
  intro s
  have hs : s.Valid := checkIndex_eq_ok.mp rfl
  have htwo : 2 ≤ s.length := by decide
  have hrule : Quadrature.trapezoids ≠ .simpson := by decide
  exact ⟨⟨hs, rfl, htwo, hrule⟩, mean_between hs rfl htwo hrule⟩

end Series

end StepSignal
