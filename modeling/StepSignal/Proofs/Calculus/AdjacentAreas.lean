import StepSignal.Proofs.Calculus.Strips
import StepSignal.Proofs.Calculus.Weights
import StepSignal.Proofs.Series

/-!
# Areas over adjacent stretches

A series cut at one of its samples, which then belongs to both parts, has an area that is the sum of
the areas of the parts. The lists of rectangles and of trapezoids of the parts make up those of the
whole, but for the one rectangle that misses its side at the cut; it is passed over. Trapezoids bridge
what is missing, so that the sample at the cut has to be there for them.
-/

namespace StepSignal

open Exact Scalar

/-! ## Lists cut in two -/

section Lists

variable {α : Type} [Scalar α]

theorem length_gaps (xs : List α) : (gaps xs).length = xs.length - 1 := by
  induction xs with
  | nil => rfl
  | cons a xs ih =>
    cases xs with
    | nil => rfl
    | cons b rest => rw [gaps, List.length_cons, ih]; rfl

theorem length_differences (xs : List α) : (differences xs).length = xs.length := by
  cases xs with
  | nil => rfl
  | cons a rest => rw [differences, List.length_cons, length_gaps]; rfl

theorem gaps_append (before after : List α) (x : α) :
    gaps (before ++ x :: after) = gaps (before ++ [x]) ++ gaps (x :: after) := by
  induction before with
  | nil => rfl
  | cons a before ih =>
    cases before with
    | nil => rfl
    | cons b before => exact congrArg (List.cons (b - a)) ih

theorem differences_append (before after : List α) (x : α) :
    differences (before ++ x :: after) = differences (before ++ [x]) ++ gaps (x :: after) := by
  cases before with
  | nil => rfl
  | cons a before =>
    show Scalar.missing :: gaps (a :: before ++ x :: after) = _
    rw [gaps_append]
    rfl

theorem trapezoidAreas_append (before after : List (Point α)) (p : Point α) :
    trapezoidAreas (before ++ p :: after)
      = trapezoidAreas (before ++ [p]) ++ trapezoidAreas (p :: after) := by
  induction before with
  | nil => rfl
  | cons a before ih =>
    cases before with
    | nil => rfl
    | cons b before => exact congrArg (List.cons _) ih

variable {xs ys : List α} (us vs : List α) (x y : α)

theorem rectangleAreas_post_append (h : xs.length = ys.length) :
    rectangleAreas .post (xs ++ x :: us) (ys ++ y :: vs)
      = rectangleAreas .post (xs ++ [x]) (ys ++ [y]) ++ rectangleAreas .post (x :: us) (y :: vs) := by
  have hlength : ys.length = (gaps (xs ++ [x])).length := by
    rw [length_gaps, List.length_append, h]
    rfl
  -- the last sample of the first part has no neighbour after it
  have hfirst : (ys ++ [y]).zipWith (· * ·) (gaps (xs ++ [x]) ++ [])
      = ys.zipWith (· * ·) (gaps (xs ++ [x])) := by
    rw [List.zipWith_append hlength, List.zipWith_nil_right, List.append_nil]
  rw [List.append_nil] at hfirst
  simp only [rectangleAreas]
  rw [hfirst, gaps_append xs us x, List.zipWith_append hlength]

theorem rectangleAreas_pre_append (h : xs.length = ys.length) :
    rectangleAreas .pre (xs ++ x :: us) (ys ++ y :: vs)
      = rectangleAreas .pre (xs ++ [x]) (ys ++ [y])
        ++ (rectangleAreas .pre (x :: us) (y :: vs)).tail := by
  have hlength : (ys ++ [y]).length = (differences (xs ++ [x])).length := by
    rw [length_differences, List.length_append, List.length_append, h]
    rfl
  simp only [rectangleAreas]
  rw [List.append_cons ys y vs, differences_append xs us x, List.zipWith_append hlength]
  rfl

theorem presentPoints_append (h : xs.length = ys.length) :
    presentPoints (xs ++ us) (ys ++ vs) = presentPoints xs ys ++ presentPoints us vs := by
  rw [presentPoints, List.zipWith_append h, List.filter_append]
  rfl

theorem presentPoints_cons (hx : isMissing x = false) (hy : isMissing y = false) :
    presentPoints (x :: us) (y :: vs) = ⟨x, y⟩ :: presentPoints us vs := by
  rw [presentPoints, List.zipWith_cons_cons, List.filter_cons_of_pos (by simp [hx, hy])]
  rfl

end Lists

/-- The areas of the two parts of a list are together the area of the list. -/
theorem Quadrature.area_append {rule : Quadrature} {xs ys : List Exact} {x y : Exact}
    (hrule : rule ≠ .simpson) (h : xs.length = ys.length) (us vs : List Exact)
    (hx : isMissing x = false) (hy : isMissing y = false) :
    rule.area (xs ++ x :: us) (ys ++ y :: vs)
      = rule.area (xs ++ [x]) (ys ++ [y]) + rule.area (x :: us) (y :: vs) := by
  cases rule with
  | rectangles side =>
    cases side with
    | post =>
      simp only [Quadrature.area]
      rw [rectangleAreas_post_append us vs x y h, List.filter_append, sum_append]
    | pre =>
      -- the first rectangle of the second part misses the sample before it
      have hfirst : (rectangleAreas .pre (x :: us) (y :: vs)).filter (!isMissing ·)
          = (rectangleAreas .pre (x :: us) (y :: vs)).tail.filter (!isMissing ·) := by
        cases y <;> rfl
      simp only [Quadrature.area]
      rw [rectangleAreas_pre_append us vs x y h, List.filter_append, sum_append, hfirst]
  | trapezoids =>
    simp only [Quadrature.area]
    rw [presentPoints_append _ _ h, presentPoints_append _ _ h, presentPoints_cons us vs x y hx hy,
      presentPoints_cons [] [] x y hx hy, trapezoidAreas_append, sum_append]
    rfl
  | simpson => exact absurd rfl hrule

/-- A list with something at place `k`, cut there. -/
theorem exists_cut {α : Type} {l : List α} {k : Nat} {a : α} (h : l[k]? = some a) :
    ∃ before after, before.length = k ∧ l = before ++ a :: after ∧
      (l.take (k + 1)).drop 0 = before ++ [a] ∧ (l.take l.length).drop k = a :: after := by
  obtain ⟨hk, rfl⟩ := List.getElem?_eq_some_iff.mp h
  refine ⟨l.take k, l.drop (k + 1), List.length_take_of_le hk.le, ?_, ?_, ?_⟩
  · rw [← List.drop_eq_getElem_cons hk, List.take_append_drop]
  · rw [List.drop_zero, List.take_succ_eq_append_getElem hk]
  · rw [List.take_length, List.drop_eq_getElem_cons hk]

/-! ## Rows of a series -/

section Rows

variable {α : Type} {y s : Series α} {x : Option (Series α)} {start stop : Nat}

theorem Series.mapM_slice (hx : ∀ s ∈ x, s.times = y.times)
    (h : start ≤ stop ∧ stop ≤ y.length) :
    x.mapM (·.slice start stop) = .ok (x.map (·.rows start stop)) := by
  cases x with
  | none => rfl
  | some s =>
    have hslice := slice_eq_rows (s := s) (by rwa [length_eq_of_times (hx s rfl)])
    rw [Option.mapM_some, hslice]
    rfl

theorem Series.axis_rows : (y.rows start stop).axis (x.map (·.rows start stop))
    = ((y.axis x).take stop).drop start := by
  cases x with
  | none => exact times_rows
  | some s => exact values_rows

variable [Scalar α] [LawfulScalar α]

/-- The area over some rows is that of the same part of both lists. -/
theorem Series.Valid.integral_rows (hy : y.Valid) (hx : ∀ s ∈ x, s.times = y.times)
    (region : Option SignRegion) (rule : Quadrature) :
    (y.rows start stop).integral (x.map (·.rows start stop)) region rule
      = .ok (rule.area (((y.axis x).take stop).drop start)
          (((y.values.map (SignRegion.clip region)).take stop).drop start)) := by
  have htimes : ∀ s ∈ x.map (·.rows start stop), s.times = (y.rows start stop).times := by
    intro part hpart
    obtain ⟨s, hs, rfl⟩ := Option.mem_map.mp hpart
    rw [times_rows, times_rows, hx s hs]
  rw [hy.rows.integral_eq htimes, axis_rows, values_rows, List.map_drop, List.map_take]

end Rows

section Samples

variable {y : Series Exact} {x : Option (Series Exact)}

theorem Series.length_axis (hx : ∀ s ∈ x, s.times = y.times) : (y.axis x).length = y.length := by
  cases x with
  | none => exact length_times y
  | some s =>
    rw [← length_eq_of_times (hx s rfl)]
    exact length_values s

/-- Where the other series has a value, if there is one, there is something to look at `y` over. -/
theorem Series.Valid.exists_axis (hy : y.Valid) {k : Nat} (hk : k < y.length)
    (hxk : ∀ s ∈ x, ∃ u, s.values[k]? = some (num u)) : ∃ u, (y.axis x)[k]? = some (num u) := by
  cases x with
  | none =>
    have hlength : k < y.times.length := by
      rwa [length_times]
    obtain ⟨u, hu⟩ := eq_num_of_isMissing
      (Ordered.isMissing_of_mem hy (List.getElem_mem hlength))
    refine ⟨u, ?_⟩
    rw [← hu]
    exact List.getElem?_eq_getElem hlength
  | some s => exact hxk s rfl

theorem Series.Valid.isMissing_of_mem_axis (hy : y.Valid) (hx : ∀ s ∈ x, s.hasMissing = false) :
    ∀ u ∈ y.axis x, isMissing u = false := by
  intro u hu
  cases x with
  | none => exact Ordered.isMissing_of_mem hy hu
  | some s => exact isMissing_of_mem_values (hx s rfl) hu

theorem SignRegion.isMissing_clip (region : Option SignRegion) (v : Exact) :
    isMissing (SignRegion.clip region v) = isMissing v := by
  rw [SignRegion.clip_eq_map]
  cases v <;> rfl

end Samples

/-- The area of a series is that of its rows up to a sample and that of its rows from there. -/
theorem Series.Valid.integral_cut {y : Series Exact} {x : Option (Series Exact)} {k : Nat} {v : Rat}
    {rule : Quadrature} (hy : y.Valid) (hx : ∀ s ∈ x, s.times = y.times)
    (region : Option SignRegion) (hyk : y.values[k]? = some (num v))
    (hxk : ∀ s ∈ x, ∃ u, s.values[k]? = some (num u)) (hrule : rule ≠ .simpson) :
    ∃ first second : Rat,
      (y.rows 0 (k + 1)).integral (x.map (·.rows 0 (k + 1))) region rule = .ok (num first) ∧
      (y.rows k y.length).integral (x.map (·.rows k y.length)) region rule = .ok (num second) ∧
      y.integral x region rule = .ok (num (first + second)) := by
  have hlength : (y.values.map (SignRegion.clip region)).length = y.length := by
    rw [List.length_map, length_values]
  have hys : (y.values.map (SignRegion.clip region))[k]?
      = some (SignRegion.clip region (num v)) := by
    rw [List.getElem?_map, hyk]
    rfl
  have hk : k < y.length := hlength ▸ (List.getElem?_eq_some_iff.mp hys).1
  obtain ⟨u, hu⟩ := hy.exists_axis hk hxk
  obtain ⟨us, us', hus, hxs, hxfirst, hxsecond⟩ := exists_cut hu
  obtain ⟨vs, vs', hvs, hys, hyfirst, hysecond⟩ := exists_cut hys
  obtain ⟨first, hfirst⟩ :=
    Quadrature.exists_area hrule (us ++ [num u]) (vs ++ [SignRegion.clip region (num v)])
  obtain ⟨second, hsecond⟩ :=
    Quadrature.exists_area hrule (num u :: us') (SignRegion.clip region (num v) :: vs')
  have harea : rule.area (y.axis x) (y.values.map (SignRegion.clip region))
      = num (first + second) := by
    rw [hxs, hys, Quadrature.area_append hrule (hus.trans hvs.symm) us' vs' rfl
      (SignRegion.isMissing_clip region (num v)), hfirst, hsecond]
    rfl
  refine ⟨first, second, ?_, ?_, ?_⟩
  · rw [hy.integral_rows hx, hxfirst, hyfirst, hfirst]
  · rw [hlength] at hysecond
    rw [length_axis hx] at hxsecond
    rw [hy.integral_rows hx, hxsecond, hysecond, hsecond]
  · rw [hy.integral_eq hx, harea]

/-- When no sample is missing, the area is that of the strips between some points. -/
theorem Series.Valid.exists_strips {y : Series Exact} {x : Option (Series Exact)} (hy : y.Valid)
    (hx : ∀ s ∈ x, s.times = y.times) (region : Option SignRegion)
    (hycomplete : y.hasMissing = false) (hxcomplete : ∀ s ∈ x, s.hasMissing = false) :
    ∃ ps : List (Point Rat), ∀ (rule : Quadrature) (height : Rat → Rat → Rat),
      rule.Strips height → y.integral x region rule = .ok (num (stripAreas height ps).sum) := by
  have hlength : (y.axis x).length = (y.values.map (SignRegion.clip region)).length := by
    rw [length_axis hx, List.length_map, length_values]
  have hys : ∀ v ∈ y.values.map (SignRegion.clip region), isMissing v = false := by
    intro clipped hclipped
    obtain ⟨v, hv, rfl⟩ := List.mem_map.mp hclipped
    rw [SignRegion.isMissing_clip]
    exact isMissing_of_mem_values hycomplete hv
  obtain ⟨ps, hpxs, hpys⟩ := exists_points_of_complete hlength (hy.isMissing_of_mem_axis hxcomplete) hys
  refine ⟨ps, ?_⟩
  intro rule height hstrips
  rw [hy.integral_eq hx, hpxs, hpys, hstrips.area_eq]

/-- **Areas are additive over adjacent stretches and consistent across rules.** At a sample that is
there the area splits into that of the rows up to it and that of the rows from it on. When nothing is
missing, the trapezoids have half the area of the two kinds of rectangles. -/
theorem Series.integral_adjacent {y : Series Exact} {x : Option (Series Exact)} (hy : y.Valid)
    (hx : ∀ s ∈ x, s.times = y.times) (region : Option SignRegion) :
    (∀ k v, y.values[k]? = some (num v) → (∀ s ∈ x, ∃ u, s.values[k]? = some (num u)) →
      ∃ y₁ x₁ y₂ x₂,
        y.slice 0 (k + 1) = .ok y₁ ∧ x.mapM (·.slice 0 (k + 1)) = .ok x₁ ∧
        y.slice k y.length = .ok y₂ ∧ x.mapM (·.slice k y.length) = .ok x₂ ∧
        ∀ rule, rule ≠ .simpson → ∃ first second : Rat,
          y₁.integral x₁ region rule = .ok (num first) ∧
          y₂.integral x₂ region rule = .ok (num second) ∧
          y.integral x region rule = .ok (num (first + second))) ∧
    (y.hasMissing = false → (∀ s ∈ x, s.hasMissing = false) →
      ∃ post pre area : Rat,
        y.integral x region (.rectangles .post) = .ok (num post) ∧
        y.integral x region (.rectangles .pre) = .ok (num pre) ∧
        y.integral x region .trapezoids = .ok (num area) ∧ post + pre = 2 * area) := by
  constructor
  · intro k v hyk hxk
    have hk : k < y.length := by
      have hvalues := (List.getElem?_eq_some_iff.mp hyk).1
      rwa [length_values] at hvalues
    have hfirst : 0 ≤ k + 1 ∧ k + 1 ≤ y.length := ⟨Nat.zero_le _, hk⟩
    have hsecond : k ≤ y.length ∧ y.length ≤ y.length := ⟨hk.le, le_rfl⟩
    refine ⟨_, _, _, _, slice_eq_rows hfirst, mapM_slice hx hfirst, slice_eq_rows hsecond,
      mapM_slice hx hsecond, ?_⟩
    intro rule hrule
    exact hy.integral_cut hx region hyk hxk hrule
  · intro hycomplete hxcomplete
    obtain ⟨ps, harea⟩ := hy.exists_strips hx region hycomplete hxcomplete
    exact ⟨_, _, _, harea _ _ Quadrature.strips_post, harea _ _ Quadrature.strips_pre,
      harea _ _ Quadrature.strips_trapezoids, sum_stripAreas_add _ _ ps⟩

/-- A series with a missing sample cut at its third one, and a complete one over another series. -/
theorem Series.integral_adjacent_of_five :
    let times : List Exact := [0, 1, 2, 3, 5].map num
    let y : Series Exact :=
      ⟨"y", times.zipWith .mk [num 1, .missing, num 3, num (-2), num 4]⟩
    let z : Series Exact := ⟨"z", times.zipWith .mk [num 1, num 7, num 3, num (-2), num 4]⟩
    let x : Series Exact := ⟨"x", times.zipWith .mk [num 0, num 2, num 1, num 4, num 4]⟩
    (y.Valid ∧ z.Valid ∧ x.times = z.times) ∧
      y.values[2]? = some (num 3) ∧ z.hasMissing = false ∧ x.hasMissing = false ∧
      (∃ y₁ x₁ y₂ x₂,
        y.slice 0 3 = .ok y₁ ∧ (none : Option (Series Exact)).mapM (·.slice 0 3) = .ok x₁ ∧
        y.slice 2 y.length = .ok y₂ ∧
        (none : Option (Series Exact)).mapM (·.slice 2 y.length) = .ok x₂ ∧
        ∀ rule, rule ≠ .simpson → ∃ first second : Rat,
          y₁.integral x₁ none rule = .ok (num first) ∧
          y₂.integral x₂ none rule = .ok (num second) ∧
          y.integral none none rule = .ok (num (first + second))) ∧
      ∃ post pre area : Rat,
        z.integral (some x) (some .positive) (.rectangles .post) = .ok (num post) ∧
        z.integral (some x) (some .positive) (.rectangles .pre) = .ok (num pre) ∧
        z.integral (some x) (some .positive) .trapezoids = .ok (num area) ∧
        post + pre = 2 * area := by
  intro times y z x
  have hy : y.Valid := checkIndex_eq_ok.mp rfl
  have hz : z.Valid := checkIndex_eq_ok.mp rfl
  have hx : ∀ s ∈ some x, s.times = z.times := by
    rintro s ⟨⟩
    rfl
  have hcomplete : ∀ s ∈ some x, s.hasMissing = false := by
    rintro s ⟨⟩
    rfl
  have hnone : ∀ s ∈ (none : Option (Series Exact)), s.times = y.times := by
    rintro s ⟨⟩
  refine ⟨⟨hy, hz, rfl⟩, rfl, rfl, rfl, ?_, ?_⟩
  · exact (Series.integral_adjacent hy hnone none).1 2 3 rfl (by rintro s ⟨⟩)
  · exact (Series.integral_adjacent hz hx (some .positive)).2 rfl hcomplete

end StepSignal
