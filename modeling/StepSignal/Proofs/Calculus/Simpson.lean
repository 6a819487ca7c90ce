import Mathlib.Analysis.SpecialFunctions.Integrals.Basic
import Mathlib.Topology.Algebra.Polynomial
import StepSignal.Proofs.Calculus.Points

/-!
# What Simpson's rule computes exactly

Through three samples on a polynomial of degree two the parabola is the polynomial, whatever the
distances between them are, and its area is the integral. Each parabola begins where the one before
it ends, so that their areas add up to the integral over all of them. With an even number of samples
one interval is left to a trapezoid, which is exact on a straight line.
-/

namespace StepSignal

open Exact Scalar
open scoped Polynomial

/-! ## Integrals of polynomials -/

section Integrals

variable {f : ℝ[X]}

theorem eval_of_natDegree_le_two (hf : f.natDegree ≤ 2) (t : ℝ) :
    f.eval t = f.coeff 0 + f.coeff 1 * t + f.coeff 2 * t ^ 2 := by
  rw [Polynomial.eval_eq_sum_range' (Nat.lt_succ_of_le hf)]
  simp [Finset.sum_range_succ]

theorem integral_of_natDegree_le_two (hf : f.natDegree ≤ 2) (a b : ℝ) : ∫ t in a..b, f.eval t
    = f.coeff 0 * (b - a) + f.coeff 1 * (b ^ 2 - a ^ 2) / 2 + f.coeff 2 * (b ^ 3 - a ^ 3) / 3 := by
  have hderiv : ∀ t ∈ Set.uIcc a b, HasDerivAt
      (fun t => f.coeff 0 * t + f.coeff 1 * (t ^ 2 / 2) + f.coeff 2 * (t ^ 3 / 3)) (f.eval t) t := by
    intro t _
    rw [eval_of_natDegree_le_two hf]
    have hone := (hasDerivAt_id t).const_mul (f.coeff 0)
    have htwo := ((hasDerivAt_pow 2 t).div_const 2).const_mul (f.coeff 1)
    have hthree := ((hasDerivAt_pow 3 t).div_const 3).const_mul (f.coeff 2)
    exact ((hone.add htwo).add hthree).congr_deriv (by push_cast; ring)
  rw [intervalIntegral.integral_eq_sub_of_hasDerivAt hderiv (f.continuous.intervalIntegrable a b)]
  ring

/-- Integrals over adjacent intervals add up. -/
theorem integral_eval_add (f : ℝ[X]) (a b c : ℝ) :
    (∫ t in a..b, f.eval t) + ∫ t in b..c, f.eval t = ∫ t in a..c, f.eval t :=
  intervalIntegral.integral_add_adjacent_intervals (f.continuous.intervalIntegrable a b)
    (f.continuous.intervalIntegrable b c)

/-- A scalar is the integral of a polynomial from `a` to `b`. -/
def Exact.IsIntegral (x : Exact) (f : ℝ[X]) (a b : Rat) : Prop :=
  ∃ area : Rat, x = num area ∧ (area : ℝ) = ∫ t in (a : ℝ)..b, f.eval t

namespace Exact.IsIntegral

variable {x y u v : Exact} {a b c d : Rat}

theorem zero (f : ℝ[X]) (a : Rat) : (num 0).IsIntegral f a a :=
  ⟨0, rfl, by simp⟩

theorem add (hx : x.IsIntegral f a b) (hy : y.IsIntegral f b c) : (x + y).IsIntegral f a c := by
  obtain ⟨x, rfl, hx⟩ := hx
  obtain ⟨y, rfl, hy⟩ := hy
  refine ⟨x + y, rfl, ?_⟩
  rw [Rat.cast_add, hx, hy, integral_eval_add]

/-- The average over two ways to split an interval. -/
theorem average (hx : x.IsIntegral f a b) (hy : y.IsIntegral f b c) (hu : u.IsIntegral f a d)
    (hv : v.IsIntegral f d c) : ((x + y + u + v) / Scalar.ofInt 2).IsIntegral f a c := by
  obtain ⟨x, rfl, hx⟩ := hx
  obtain ⟨y, rfl, hy⟩ := hy
  obtain ⟨u, rfl, hu⟩ := hu
  obtain ⟨v, rfl, hv⟩ := hv
  refine ⟨(x + y + u + v) / 2, ?_, ?_⟩
  · rw [ofInt_eq, num_add_num, num_add_num, num_add_num, num_div_num _ (by norm_num)]
    rfl
  · have hfirst : (x + y : ℝ) = ∫ t in (a : ℝ)..c, f.eval t := by
      rw [hx, hy, integral_eval_add]
    have hsecond : (u + v : ℝ) = ∫ t in (a : ℝ)..c, f.eval t := by
      rw [hu, hv, integral_eval_add]
    push_cast
    linarith

end Exact.IsIntegral

end Integrals

/-! ## Points on a polynomial -/

/-- Points on the curve of a polynomial, from left to right. -/
structure Along (f : ℝ[X]) (ps : List (Point Rat)) : Prop where
  increasing : ps.Pairwise fun p q => p.x < q.x
  liesOn : ∀ p ∈ ps, f.eval (p.x : ℝ) = p.y

variable {f : ℝ[X]} {p q r : Point Rat} {ps rest : List (Point Rat)}

/-- The area under a parabola weighs the three values by the distances between the points. -/
theorem parabolaArea_exact (hpq : p.x < q.x) (hqr : q.x < r.x) :
    parabolaArea p.exact q.exact r.exact
      = num ((r.x - p.x) / 6 * (p.y * (2 - (r.x - q.x) / (q.x - p.x))
          + q.y * (r.x - p.x) ^ 2 / ((q.x - p.x) * (r.x - q.x))
          + r.y * (2 - (q.x - p.x) / (r.x - q.x)))) := by
  have hbefore : q.x - p.x ≠ 0 := (sub_pos.mpr hpq).ne'
  have hafter : r.x - q.x ≠ 0 := (sub_pos.mpr hqr).ne'
  simp only [parabolaArea, Point.exact, num_sub_num, num_add_num, num_mul_num, ofInt_eq,
    num_div_num _ hafter, num_div_num _ (div_ne_zero hbefore hafter),
    num_div_num _ (mul_ne_zero hbefore hafter)]
  rw [num_div_num _ (by norm_num), num_mul_num]
  congr 1
  push_cast
  field_simp
  ring

theorem closingArea_exact (p q : Point Rat) :
    closingArea p.exact q.exact = num ((q.x - p.x) * (q.y + p.y) / 2) := by
  simp only [closingArea, Point.exact, num_sub_num, num_add_num, ofInt_eq]
  rw [num_div_num _ (by norm_num), num_mul_num, num_mul_num]
  congr 1
  push_cast
  ring

namespace Along

theorem sublist (h : Along f ps) (kept : List (Point Rat)) (hs : kept.Sublist ps) :
    Along f kept :=
  ⟨h.increasing.sublist hs, fun p hp => h.liesOn p (hs.mem hp)⟩

theorem tail (h : Along f (p :: rest)) : Along f rest :=
  h.sublist rest (List.sublist_cons_self p rest)

/-- The area under the parabola through three points of a polynomial of degree two. -/
theorem isIntegral_parabolaArea (hf : f.natDegree ≤ 2) (h : Along f [p, q, r]) :
    (parabolaArea p.exact q.exact r.exact).IsIntegral f p.x r.x := by
  obtain ⟨⟨hpq, -⟩, hqr⟩ : (p.x < q.x ∧ p.x < r.x) ∧ q.x < r.x := by simpa using h.increasing
  refine ⟨_, parabolaArea_exact hpq hqr, ?_⟩
  have hbefore : (q.x : ℝ) - p.x ≠ 0 := sub_ne_zero.mpr (Rat.cast_lt.mpr hpq).ne'
  have hafter : (r.x : ℝ) - q.x ≠ 0 := sub_ne_zero.mpr (Rat.cast_lt.mpr hqr).ne'
  push_cast
  rw [← h.liesOn p (by simp), ← h.liesOn q (by simp), ← h.liesOn r (by simp),
    integral_of_natDegree_le_two hf]
  simp only [eval_of_natDegree_le_two hf]
  field_simp
  ring

/-- The trapezoid between two points of a straight line. -/
theorem isIntegral_closingArea (hf : f.natDegree ≤ 1) (h : Along f [p, q]) :
    (closingArea p.exact q.exact).IsIntegral f p.x q.x := by
  have hcoeff : f.coeff 2 = 0 := Polynomial.coeff_eq_zero_of_natDegree_lt (by omega)
  refine ⟨_, closingArea_exact p q, ?_⟩
  push_cast
  rw [← h.liesOn p (by simp), ← h.liesOn q (by simp), integral_of_natDegree_le_two (by omega)]
  simp only [eval_of_natDegree_le_two (show f.natDegree ≤ 2 by omega), hcoeff]
  ring

/-- The parabolas together have the integral from the first point to the last. -/
theorem isIntegral_sum_parabolaAreas (hf : f.natDegree ≤ 2) (h : Along f (p :: rest))
    (heven : Even rest.length) :
    (Scalar.sum (parabolaAreas ((p :: rest).map Point.exact))).IsIntegral f p.x
      (rest.getLastD p).x := by
  -- two points at a time, as the parabolas go
  induction rest using List.twoStepInduction generalizing p with
  | nil => exact .zero f p.x
  | singleton q => simp at heven
  | cons_cons q r rest ih =>
    have hparabola := isIntegral_parabolaArea hf (h.sublist [p, q, r] (by simp))
    have heven : Even rest.length := by simpa [Nat.even_add_one] using heven
    simp only [List.map_cons, parabolaAreas, sum_cons, List.getLastD_cons]
    exact hparabola.add (ih h.tail.tail heven)

end Along

/-! ## Simpson's rule -/

section Even

variable {α : Type} [Scalar α]

/-- The two ways to leave one interval of an even number of points to a trapezoid. -/
theorem evenSimpsonArea_concat (p q z : Point α) (init : List (Point α)) :
    evenSimpsonArea p q (init ++ [z])
      = (Scalar.sum (parabolaAreas (p :: q :: init)) + closingArea (init.getLastD q) z
          + closingArea p q + Scalar.sum (parabolaAreas (q :: (init ++ [z])))) / Scalar.ofInt 2 := by
  have hpoints : p :: q :: (init ++ [z]) = (p :: q :: init) ++ [z] := rfl
  rw [evenSimpsonArea, List.getLast?_concat, hpoints, List.dropLast_concat, List.getLastD_cons,
    List.getLastD_cons]

end Even

namespace Along

theorem isIntegral_evenSimpsonArea (hf : f.natDegree ≤ 1) (h : Along f (p :: q :: rest))
    (heven : Even rest.length) :
    (evenSimpsonArea p.exact q.exact (rest.map Point.exact)).IsIntegral f p.x
      (rest.getLastD q).x := by
  have hf' : f.natDegree ≤ 2 := by omega
  have hopening := isIntegral_closingArea hf (h.sublist [p, q] (by simp))
  rcases List.eq_nil_or_concat' rest with rfl | ⟨init, z, rfl⟩
  · exact hopening
  · have hinit : Even (q :: init).length := by simpa [Nat.even_add_one] using heven
    -- the trapezoid at the end is over the last two points
    have hlast : [init.getLastD q, z].Sublist (p :: q :: (init ++ [z])) :=
      ((List.singleton_sublist.mpr List.getLastD_mem_cons).append (.refl [z])).cons p
    have hhead := isIntegral_sum_parabolaAreas hf' (h.sublist (p :: q :: init) (by simp)) hinit
    have hclosing := isIntegral_closingArea hf (h.sublist _ hlast)
    have htail := isIntegral_sum_parabolaAreas hf' h.tail heven
    rw [List.getLastD_cons] at hhead
    rw [List.getLastD_concat] at htail ⊢
    rw [List.map_append, List.map_singleton, evenSimpsonArea_concat, List.getLastD_map]
    simpa using hhead.average hclosing hopening htail

/-- On a polynomial of degree two Simpson's rule is exact for an odd number of points, and on a
straight line for any number. -/
theorem isIntegral_simpsonArea (h : Along f (p :: q :: rest))
    (hdegree : f.natDegree ≤ 2 ∧ Odd rest.length ∨ f.natDegree ≤ 1) :
    (simpsonArea ((p :: q :: rest).map Point.exact)).IsIntegral f p.x (rest.getLastD q).x := by
  simp only [List.map_cons, simpsonArea, List.length_map]
  rcases Nat.even_or_odd rest.length with heven | hodd
  · have hf : f.natDegree ≤ 1 := by
      rcases hdegree with ⟨-, hodd⟩ | hf
      · exact absurd heven (Nat.not_even_iff_odd.mpr hodd)
      · exact hf
    rw [if_neg (Nat.mod_two_ne_one.mpr (Nat.even_iff.mp heven))]
    exact isIntegral_evenSimpsonArea hf h heven
  · have hf : f.natDegree ≤ 2 := by omega
    have hsum := isIntegral_sum_parabolaAreas hf h (by simpa [Nat.even_add_one] using hodd)
    rw [List.getLastD_cons] at hsum
    rwa [if_pos (Nat.odd_iff.mp hodd)]

end Along

/-! ## Series -/

/-- Every sample that is not missing lies on the curve of a polynomial. -/
def Series.LiesOn (s : Series Exact) (f : ℝ[X]) : Prop :=
  ∀ t v : Rat, ⟨num t, num v⟩ ∈ s.samples → f.eval (t : ℝ) = v

/-- **Simpson's rule is exact where it should be.** If the samples that are not missing are an odd
number on one polynomial of degree two, or any number from two on a straight line, then the area is
the integral of the polynomial from the first of them to the last. Fewer than two have no area. -/
theorem Series.integral_simpson {y : Series Exact} (hy : y.Valid) :
    (y.present.length < 2 → y.integral none none .simpson = .ok (num 0)) ∧
    ∀ f : ℝ[X], y.LiesOn f →
      (f.natDegree ≤ 2 ∧ Odd y.present.length ∧ 3 ≤ y.present.length ∨
        f.natDegree ≤ 1 ∧ 2 ≤ y.present.length) →
      ∃ first last area : Rat,
        (Stamped.times y.present).head? = some (num first) ∧
        (Stamped.times y.present).getLast? = some (num last) ∧
        y.integral none none .simpson = .ok (num area) ∧
        (area : ℝ) = ∫ t in (first : ℝ)..last, f.eval t := by
  obtain ⟨ps, hps, hincreasing⟩ := hy.exists_points
  have harea : y.integral none none .simpson = .ok (simpsonArea (ps.map Point.exact)) := by
    rw [Series.integral_times, Quadrature.area, hy.presentPoints_eq, hps, List.map_map]
    rfl
  rw [harea, hps, List.length_map]
  constructor
  · intro hfew
    match ps with
    | [] => rfl
    | [_] => rfl
  · intro f hf hdegree
    have hon : Along f ps := by
      refine ⟨hincreasing, fun p hp => hf p.x p.y ?_⟩
      have hpresent : p.sample ∈ y.present := hps ▸ List.mem_map_of_mem hp
      exact List.mem_of_mem_filter hpresent
    match ps with
    | [] => simp at hdegree
    | [_] => simp at hdegree
    | p :: q :: rest =>
      have hdegree : f.natDegree ≤ 2 ∧ Odd rest.length ∨ f.natDegree ≤ 1 := by
        rcases hdegree with ⟨hf, hodd, -⟩ | ⟨hf, -⟩
        · exact .inl ⟨hf, by simpa [Nat.odd_add_one] using hodd⟩
        · exact .inr hf
      obtain ⟨area, hnumber, hintegral⟩ := hon.isIntegral_simpsonArea hdegree
      have hlast : (p :: q :: rest).getLast? = some (rest.getLastD q) := by
        rw [List.getLast?_cons_cons, List.getLast?_cons, List.getLastD_eq_getLast?]
      refine ⟨p.x, (rest.getLastD q).x, area, rfl, ?_, by rw [hnumber], hintegral⟩
      rw [Stamped.times, List.getLast?_map, List.getLast?_map, hlast]
      rfl

/-- A parabola with one sample missing. -/
theorem Series.integral_simpson_of_parabola :
    let y : Series Exact :=
      ⟨"y", [⟨num 0, num 1⟩, ⟨num 1, num 2⟩, ⟨num 2, .missing⟩, ⟨num 4, num 17⟩]⟩
    let f : ℝ[X] := .X ^ 2 + 1
    y.Valid ∧ y.LiesOn f ∧ (f.natDegree ≤ 2 ∧ Odd y.present.length ∧ 3 ≤ y.present.length) ∧
      ∃ first last area : Rat,
        (Stamped.times y.present).head? = some (num first) ∧
        (Stamped.times y.present).getLast? = some (num last) ∧
        y.integral none none .simpson = .ok (num area) ∧
        (area : ℝ) = ∫ t in (first : ℝ)..last, f.eval t := by
  intro y f
  have hy : y.Valid := checkIndex_eq_ok.mp rfl
  have hf : y.LiesOn f := by
    intro t v hrow
    simp [y] at hrow
    rcases hrow with ⟨rfl, rfl⟩ | ⟨rfl, rfl⟩ | ⟨rfl, rfl⟩ <;> norm_num [f]
  have hdegree : f.natDegree ≤ 2 ∧ Odd y.present.length ∧ 3 ≤ y.present.length :=
    ⟨by simp only [f]; compute_degree, by decide, by decide⟩
  exact ⟨hy, hf, hdegree, (Series.integral_simpson hy).2 f hf (.inl hdegree)⟩

end StepSignal
