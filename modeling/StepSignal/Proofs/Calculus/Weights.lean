import StepSignal.Proofs.Calculus.Simpson

/-!
# Areas weigh the samples

Whatever the rule, an area is the sum of the samples that are there by weights that only depend on
where they are. What is true of all weighted sums is therefore true of areas: when every sample is
the sum of two others that are missing in the same places, the area is the sum of the two areas. The
parts of a sample above and below zero are such a pair.
-/

namespace StepSignal

open Exact Scalar

/-- Changes a number; what is missing stays missing. -/
def Exact.map (f : Rat → Rat) : Exact → Exact
  | .missing => .missing
  | .num q => .num (f q)

@[simp] theorem Exact.map_missing (f : Rat → Rat) : Exact.map f .missing = .missing := rfl

@[simp] theorem Exact.map_num (f : Rat → Rat) (q : Rat) : Exact.map f (num q) = num (f q) := rfl

@[simp] theorem Exact.map_id : Exact.map id = id := by
  funext x
  cases x <;> rfl

/-- The point above or below which has another value. -/
def Point.map (f : Rat → Rat) (p : Point Rat) : Point Rat := ⟨p.x, f p.y⟩

/-- The points that are there stay the same when the numbers change. -/
theorem exists_presentPoints (xs ys : List Exact) : ∃ ps : List (Point Rat),
    (exact (ps.map (·.x))).Sublist (xs.filter (!isMissing ·)) ∧
    ∀ f, presentPoints xs (ys.map (Exact.map f)) = (ps.map (Point.map f)).map Point.exact := by
  induction xs generalizing ys with
  | nil => exact ⟨[], .slnil, fun f => rfl⟩
  | cons x xs ih =>
    cases ys with
    | nil => exact ⟨[], List.nil_sublist _, fun f => rfl⟩
    | cons y ys =>
      obtain ⟨ps, hxs, hps⟩ := ih ys
      cases x with
      | missing => exact ⟨ps, hxs, hps⟩
      | num u =>
        cases y with
        | missing => exact ⟨ps, hxs.cons (num u), hps⟩
        | num v =>
          refine ⟨⟨u, v⟩ :: ps, hxs.cons_cons (num u), ?_⟩
          intro f
          exact congrArg (List.cons ⟨num u, num (f v)⟩) (hps f)

/-! ## Weighted sums -/

/-- A number and the weight that it has in a sum. -/
structure Share where
  weight : Rat
  value : Rat

/-- The sum of some numbers by their weights, each number replaced by another one. -/
def weightedSum (shares : List Share) (f : Rat → Rat) : Rat :=
  (shares.map fun s => s.weight * f s.value).sum

theorem weightedSum_append (shares others : List Share) (f : Rat → Rat) :
    weightedSum (shares ++ others) f = weightedSum shares f + weightedSum others f := by
  rw [weightedSum, List.map_append, List.sum_append]
  rfl

theorem weightedSum_add (shares : List Share) (f g : Rat → Rat) :
    weightedSum shares (fun v => f v + g v) = weightedSum shares f + weightedSum shares g := by
  simp only [weightedSum, mul_add, List.sum_map_add]

theorem weightedSum_mul (shares : List Share) (c : Rat) (f : Rat → Rat) :
    weightedSum shares (fun v => f v * c) = weightedSum shares f * c := by
  simp only [weightedSum, ← mul_assoc, List.sum_map_mul_right]

/-- Half of a weighted sum is the sum by half of the weights. -/
theorem weightedSum_halved (shares : List Share) (f : Rat → Rat) :
    weightedSum (shares.map fun s => ⟨s.weight / 2, s.value⟩) f = weightedSum shares f / 2 := by
  rw [weightedSum, List.map_map, div_eq_mul_inv, weightedSum, ← List.sum_map_mul_right]
  congr 1
  apply List.map_congr_left
  intro s _
  show s.weight / 2 * f s.value = s.weight * f s.value * 2⁻¹
  ring

/-- What is computed from some numbers weighs them: whatever they are replaced by, it is their sum by
the same weights. -/
def Weighs (total : (Rat → Rat) → Exact) : Prop :=
  ∃ shares, ∀ f, total f = num (weightedSum shares f)

namespace Weighs

variable {total other : (Rat → Rat) → Exact}

theorem zero : Weighs fun _ => num 0 := ⟨[], fun _ => rfl⟩

theorem add (h : Weighs total) (hother : Weighs other) : Weighs fun f => total f + other f := by
  obtain ⟨shares, hshares⟩ := h
  obtain ⟨others, hothers⟩ := hother
  refine ⟨shares ++ others, ?_⟩
  intro f
  show total f + other f = _
  rw [hshares, hothers, weightedSum_append, num_add_num]

theorem half (h : Weighs total) : Weighs fun f => total f / Scalar.ofInt 2 := by
  obtain ⟨shares, hshares⟩ := h
  refine ⟨shares.map fun s => ⟨s.weight / 2, s.value⟩, ?_⟩
  intro f
  show total f / Scalar.ofInt 2 = _
  rw [hshares, weightedSum_halved, ofInt_eq, num_div_num _ (by norm_num)]
  rfl

end Weighs

/-! ## Rules -/

section Rules

variable {p q r : Point Rat} {ps rest : List (Point Rat)}

/-- A product with what is missing is passed over. -/
theorem weighs_products (ys widths : List Exact) : Weighs fun f =>
    Scalar.sum (((ys.map (Exact.map f)).zipWith (· * ·) widths).filter (!isMissing ·)) := by
  induction ys generalizing widths with
  | nil => exact .zero
  | cons y ys ih =>
    cases widths with
    | nil => exact .zero
    | cons width widths =>
      cases y with
      | missing => exact ih widths
      | num v =>
        cases width with
        | missing => exact ih widths
        | num d =>
          have hproduct : Weighs fun f => num (f v * d) := by
            refine ⟨[⟨d, v⟩], ?_⟩
            intro f
            simp [weightedSum, mul_comm]
          show Weighs fun f => Scalar.sum (num (f v * d) :: _)
          simp only [sum_cons]
          exact hproduct.add (ih widths)

theorem weighs_trapezoidAreas (ps : List (Point Rat)) : Weighs fun f =>
    Scalar.sum (trapezoidAreas ((ps.map (Point.map f)).map Point.exact)) := by
  induction ps with
  | nil => exact .zero
  | cons p rest ih =>
    cases rest with
    | nil => exact .zero
    | cons q rest =>
      have hproduct : Weighs fun f => num ((q.x - p.x) * (f p.y + f q.y)) := by
        refine ⟨[⟨q.x - p.x, p.y⟩, ⟨q.x - p.x, q.y⟩], ?_⟩
        intro f
        simp [weightedSum, mul_add]
      simp only [List.map_cons, trapezoidAreas, sum_cons]
      exact hproduct.half.add ih

theorem weighs_parabolaArea (hpq : p.x < q.x) (hqr : q.x < r.x) :
    Weighs fun f => parabolaArea (p.map f).exact (q.map f).exact (r.map f).exact := by
  let third := (r.x - p.x) / 6
  refine ⟨[⟨third * (2 - (r.x - q.x) / (q.x - p.x)), p.y⟩,
    ⟨third * ((r.x - p.x) ^ 2 / ((q.x - p.x) * (r.x - q.x))), q.y⟩,
    ⟨third * (2 - (q.x - p.x) / (r.x - q.x)), r.y⟩], ?_⟩
  intro f
  show parabolaArea (p.map f).exact (q.map f).exact (r.map f).exact = _
  rw [parabolaArea_exact (p := p.map f) (q := q.map f) (r := r.map f) hpq hqr]
  simp only [weightedSum, Point.map, List.map_cons, List.map_nil, List.sum_cons, List.sum_nil, third]
  congr 1
  ring

theorem weighs_closingArea (p q : Point Rat) :
    Weighs fun f => closingArea (p.map f).exact (q.map f).exact := by
  refine ⟨[⟨(q.x - p.x) / 2, p.y⟩, ⟨(q.x - p.x) / 2, q.y⟩], ?_⟩
  intro f
  show closingArea (p.map f).exact (q.map f).exact = _
  rw [closingArea_exact]
  simp only [weightedSum, Point.map, List.map_cons, List.map_nil, List.sum_cons, List.sum_nil]
  congr 1
  ring

theorem weighs_parabolaAreas (h : (p :: rest).Pairwise fun p q => p.x < q.x) : Weighs fun f =>
    Scalar.sum (parabolaAreas (((p :: rest).map (Point.map f)).map Point.exact)) := by
  -- two points at a time, as the parabolas go
  induction rest using List.twoStepInduction generalizing p with
  | nil => exact .zero
  | singleton q => exact .zero
  | cons_cons q r rest ih =>
    have hrest := h.tail
    have hpq := (List.pairwise_cons.mp h).1 q List.mem_cons_self
    have hqr := (List.pairwise_cons.mp hrest).1 r List.mem_cons_self
    simp only [List.map_cons, parabolaAreas, sum_cons]
    exact (weighs_parabolaArea hpq hqr).add (ih hrest.tail)

theorem weighs_evenSimpsonArea (h : (p :: q :: rest).Pairwise fun p q => p.x < q.x) :
    Weighs fun f => evenSimpsonArea (p.map f).exact (q.map f).exact
      ((rest.map (Point.map f)).map Point.exact) := by
  rcases List.eq_nil_or_concat' rest with rfl | ⟨init, z, rfl⟩
  · exact weighs_closingArea p q
  · have hinit : (p :: q :: init).Pairwise fun p q => p.x < q.x := h.sublist (by simp)
    have hhead := weighs_parabolaAreas hinit
    have hclosing := weighs_closingArea (init.getLastD q) z
    have htail := weighs_parabolaAreas h.tail
    simp only [List.map_append, List.map_cons, List.map_nil, evenSimpsonArea_concat,
      List.getLastD_map] at hhead htail ⊢
    exact (((hhead.add hclosing).add (weighs_closingArea p q)).add htail).half

theorem weighs_simpsonArea (h : ps.Pairwise fun p q => p.x < q.x) :
    Weighs fun f => simpsonArea ((ps.map (Point.map f)).map Point.exact) := by
  match ps with
  | [] => exact .zero
  | [_] => exact .zero
  | p :: q :: rest =>
    simp only [List.map_cons, simpsonArea, List.length_map]
    split
    · exact weighs_parabolaAreas h
    · exact weighs_evenSimpsonArea h

end Rules

/-- Every rule weighs the samples. Simpson's rule needs abscissas that increase. -/
theorem Quadrature.weighs_area (rule : Quadrature) (xs ys : List Exact)
    (h : rule = .simpson → Increasing (xs.filter (!isMissing ·))) :
    Weighs fun f => rule.area xs (ys.map (Exact.map f)) := by
  obtain ⟨ps, hxs, hps⟩ := exists_presentPoints xs ys
  cases rule with
  | rectangles side =>
    cases side with
    | post => exact weighs_products ys (gaps xs)
    | pre => exact weighs_products ys (differences xs)
  | trapezoids =>
    simp only [Quadrature.area, hps]
    exact weighs_trapezoidAreas ps
  | simpson =>
    have hordered : Ordered (xs.filter (!isMissing ·)) := by
      refine ⟨?_, h rfl⟩
      intro x hx
      obtain ⟨u, rfl⟩ := eq_num_of_isMissing (by simpa using (List.mem_filter.mp hx).2)
      rfl
    simp only [Quadrature.area, hps]
    exact weighs_simpsonArea (hordered.sublist hxs).pairwise_x

/-- Without Simpson's rule an area is always a number. -/
theorem Quadrature.exists_area {rule : Quadrature} (h : rule ≠ .simpson) (xs ys : List Exact) :
    ∃ a, rule.area xs ys = num a := by
  obtain ⟨shares, harea⟩ := rule.weighs_area xs ys fun hsimpson => absurd hsimpson h
  have hsame := harea id
  simp only [Exact.map_id, List.map_id] at hsame
  exact ⟨_, hsame⟩

/-! ## Signed areas -/

/-- What becomes of a number that is clipped to a region. -/
def SignRegion.part : Option SignRegion → Rat → Rat
  | some .positive, v => max v 0
  | some .negative, v => min v 0
  | none, v => v

theorem SignRegion.clip_eq_map (region : Option SignRegion) :
    SignRegion.clip region = Exact.map (SignRegion.part region) := by
  funext v
  cases v with
  | missing => rcases region with - | - | - <;> rfl
  | num v =>
    rcases region with - | - | -
    · rfl
    · rcases lt_or_ge v 0 with h | h
      · simp [clip, part, h, max_eq_right h.le]
      · simp [clip, part, not_lt.mpr h, max_eq_left h]
    · rcases lt_or_ge 0 v with h | h
      · simp [clip, part, h, min_eq_right h.le]
      · simp [clip, part, not_lt.mpr h, min_eq_left h]

/-- **Signed areas add up.** The area of what is above zero and the area of what is below zero, which
all four rules give, are together the area. -/
theorem Series.integral_signed {y : Series Exact} {x : Option (Series Exact)} {rule : Quadrature}
    (hy : y.Valid) (hx : ∀ s ∈ x, s.times = y.times)
    (hsimpson : rule = .simpson → ∀ s ∈ x, Increasing (s.values.filter (!isMissing ·))) :
    ∃ above below : Rat,
      y.integral x (some .positive) rule = .ok (num above) ∧
      y.integral x (some .negative) rule = .ok (num below) ∧
      y.integral x none rule = .ok (num (above + below)) := by
  have hincreasing : rule = .simpson → Increasing ((y.axis x).filter (!isMissing ·)) := by
    intro hrule
    cases x with
    | none => exact (Ordered.sublist hy List.filter_sublist).2
    | some s => exact hsimpson hrule s rfl
  obtain ⟨shares, harea⟩ := rule.weighs_area (y.axis x) y.values hincreasing
  have hregion : ∀ region, y.integral x region rule
      = .ok (num (weightedSum shares (SignRegion.part region))) := by
    intro region
    rw [hy.integral_eq hx, SignRegion.clip_eq_map]
    exact congrArg Except.ok (harea _)
  refine ⟨_, _, hregion _, hregion _, ?_⟩
  have hparts : SignRegion.part none = fun v : Rat => max v 0 + min v 0 := by
    funext v
    rw [max_add_min, add_zero]
    rfl
  rw [hregion, hparts, weightedSum_add]
  rfl

/-- An even number of samples for Simpson's rule, over a series with a missing value. -/
theorem Series.integral_signed_of_seven :
    let times : List Exact := [0, 1, 2, 3, 4, 5, 6].map num
    let y : Series Exact :=
      ⟨"y", times.zipWith .mk [num 1, num (-2), .missing, num 4, num (-1), num 3, num (-5)]⟩
    let x : Series Exact :=
      ⟨"x", times.zipWith .mk [num 0, num 2, num 3, .missing, num 7, num 8, num 12]⟩
    (y.Valid ∧ x.times = y.times ∧ Increasing (x.values.filter (!isMissing ·))) ∧
      ∃ above below : Rat,
        y.integral (some x) (some .positive) .simpson = .ok (num above) ∧
        y.integral (some x) (some .negative) .simpson = .ok (num below) ∧
        y.integral (some x) none .simpson = .ok (num (above + below)) := by
  intro times y x
  have hy : y.Valid := checkIndex_eq_ok.mp rfl
  have htimes : x.times = y.times := rfl
  have hx : Increasing (x.values.filter (!isMissing ·)) := (checkIndex_eq_ok.mp rfl).2
  refine ⟨⟨hy, htimes, hx⟩, Series.integral_signed hy ?_ ?_⟩
  · rintro s ⟨⟩
    exact htimes
  · rintro - s ⟨⟩
    exact hx

end StepSignal
