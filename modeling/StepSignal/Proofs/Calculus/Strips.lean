import Mathlib.Tactic.Ring
import StepSignal.Proofs.Calculus.Points

/-!
# Areas in strips

When no sample is missing, the rectangle rules and the trapezoid rule cut the area into one strip for
each pair of neighbouring samples. They differ in the height of a strip only, which is that of the
sample on the left, of the sample on the right, or half of both. A height is between the two samples,
so that an area over increasing abscissas is between those of the lowest and of the highest sample.
-/

namespace StepSignal

open Exact Scalar

/-- Lists of numbers of one length are the coordinates of points. -/
theorem exists_points_of_complete {xs ys : List Exact} (hlength : xs.length = ys.length)
    (hxs : ∀ x ∈ xs, isMissing x = false) (hys : ∀ y ∈ ys, isMissing y = false) :
    ∃ ps : List (Point Rat), xs = exact (ps.map (·.x)) ∧ ys = exact (ps.map (·.y)) := by
  obtain ⟨us, rfl⟩ := exists_eq_exact hxs
  obtain ⟨vs, rfl⟩ := exists_eq_exact hys
  rw [length_exact, length_exact] at hlength
  refine ⟨(us.zip vs).map fun u => ⟨u.1, u.2⟩, ?_, ?_⟩
  · rw [List.map_map]
    exact congrArg exact (List.map_fst_zip hlength.le).symm
  · rw [List.map_map]
    exact congrArg exact (List.map_snd_zip hlength.ge).symm

/-- The areas of the strips between neighbouring points, each of a height that depends on the values
at its sides. -/
def stripAreas (height : Rat → Rat → Rat) : List (Point Rat) → List Rat
  | p :: q :: rest => (q.x - p.x) * height p.y q.y :: stripAreas height (q :: rest)
  | _ => []

/-- A rule that adds up strips, each of a height between the values at its sides. -/
structure Quadrature.Strips (rule : Quadrature) (height : Rat → Rat → Rat) : Prop where
  area_eq : ∀ ps : List (Point Rat), rule.area (exact (ps.map (·.x))) (exact (ps.map (·.y)))
    = num (stripAreas height ps).sum
  le_height : ∀ {low a b : Rat}, low ≤ a → low ≤ b → low ≤ height a b
  height_le : ∀ {high a b : Rat}, a ≤ high → b ≤ high → height a b ≤ high

section Lists

variable {p : Point Rat} {ps rest : List (Point Rat)}

theorem zipWith_gaps_post (ps : List (Point Rat)) :
    (exact (ps.map (·.y))).zipWith (· * ·) (gaps (exact (ps.map (·.x))))
      = exact (stripAreas (fun a _ => a) ps) := by
  induction ps with
  | nil => rfl
  | cons p rest ih =>
    cases rest with
    | nil => rfl
    | cons q rest =>
      have harea : num p.y * (num q.x - num p.x) = num ((q.x - p.x) * p.y) := by
        rw [num_sub_num, num_mul_num, mul_comm]
      exact congrArg₂ List.cons harea ih

theorem zipWith_gaps_pre (p : Point Rat) (rest : List (Point Rat)) :
    (exact (rest.map (·.y))).zipWith (· * ·) (gaps (exact ((p :: rest).map (·.x))))
      = exact (stripAreas (fun _ b => b) (p :: rest)) := by
  induction rest generalizing p with
  | nil => rfl
  | cons q rest ih =>
    have harea : num q.y * (num q.x - num p.x) = num ((q.x - p.x) * q.y) := by
      rw [num_sub_num, num_mul_num, mul_comm]
    exact congrArg₂ List.cons harea (ih q)

theorem presentPoints_exact (ps : List (Point Rat)) :
    presentPoints (exact (ps.map (·.x))) (exact (ps.map (·.y))) = ps.map Point.exact := by
  induction ps with
  | nil => rfl
  | cons p rest ih => exact congrArg (List.cons p.exact) ih

theorem trapezoidAreas_exact (ps : List (Point Rat)) :
    trapezoidAreas (ps.map Point.exact) = exact (stripAreas (fun a b => (a + b) / 2) ps) := by
  induction ps with
  | nil => rfl
  | cons p rest ih =>
    cases rest with
    | nil => rfl
    | cons q rest =>
      have harea : (num q.x - num p.x) * (num p.y + num q.y) / Scalar.ofInt 2
          = num ((q.x - p.x) * ((p.y + q.y) / 2)) := by
        rw [num_sub_num, num_add_num, num_mul_num, ofInt_eq, num_div_num _ (by norm_num)]
        congr 1
        push_cast
        ring
      exact congrArg₂ List.cons harea ih

/-- Strips at two heights are together twice the strips at the height between. -/
theorem sum_stripAreas_add (f g : Rat → Rat → Rat) (ps : List (Point Rat)) :
    (stripAreas f ps).sum + (stripAreas g ps).sum
      = 2 * (stripAreas (fun a b => (f a b + g a b) / 2) ps).sum := by
  induction ps with
  | nil => norm_num [stripAreas]
  | cons p rest ih =>
    cases rest with
    | nil => norm_num [stripAreas]
    | cons q rest =>
      simp only [stripAreas, List.sum_cons]
      linarith

end Lists

/-! ## The rules -/

namespace Quadrature

theorem strips_post : (rectangles .post).Strips fun a _ => a where
  area_eq ps := by
    rw [area, rectangleAreas, zipWith_gaps_post, filter_exact, sum_exact]
  le_height ha _ := ha
  height_le ha _ := ha

theorem strips_pre : (rectangles .pre).Strips fun _ b => b where
  area_eq ps := by
    cases ps with
    | nil => rfl
    | cons p rest =>
      -- the first sample has no neighbour before it, so its rectangle is missing
      show Scalar.sum (((exact (rest.map (·.y))).zipWith (· * ·)
        (gaps (exact ((p :: rest).map (·.x))))).filter (!isMissing ·)) = _
      rw [zipWith_gaps_pre, filter_exact, sum_exact]
  le_height _ hb := hb
  height_le _ hb := hb

theorem strips_trapezoids : trapezoids.Strips fun a b => (a + b) / 2 where
  area_eq ps := by
    rw [area, presentPoints_exact, trapezoidAreas_exact, sum_exact]
  le_height ha hb := by linarith
  height_le ha hb := by linarith

/-- Every rule but Simpson's cuts the area into strips. -/
theorem exists_strips {rule : Quadrature} (h : rule ≠ .simpson) : ∃ height, rule.Strips height := by
  cases rule with
  | rectangles side =>
    cases side with
    | post => exact ⟨_, strips_post⟩
    | pre => exact ⟨_, strips_pre⟩
  | trapezoids => exact ⟨_, strips_trapezoids⟩
  | simpson => exact absurd rfl h

/-- An area over increasing abscissas is between those of a lower and of a higher constant. -/
theorem Strips.sum_between {rule : Quadrature} {height : Rat → Rat → Rat} {low high : Rat}
    {p : Point Rat} {rest : List (Point Rat)} (h : rule.Strips height)
    (hx : (p :: rest).Pairwise fun p q => p.x < q.x)
    (hy : ∀ q ∈ p :: rest, low ≤ q.y ∧ q.y ≤ high) :
    low * ((rest.getLastD p).x - p.x) ≤ (stripAreas height (p :: rest)).sum ∧
      (stripAreas height (p :: rest)).sum ≤ high * ((rest.getLastD p).x - p.x) := by
  induction rest generalizing p with
  | nil => norm_num [stripAreas]
  | cons q rest ih =>
    obtain ⟨hbefore, hx⟩ := List.pairwise_cons.mp hx
    have hwidth : 0 < q.x - p.x := sub_pos.mpr (hbefore q List.mem_cons_self)
    obtain ⟨hp, hy⟩ := List.forall_mem_cons.mp hy
    have hq := hy q List.mem_cons_self
    have hleast : (q.x - p.x) * low ≤ (q.x - p.x) * height p.y q.y :=
      mul_le_mul_of_nonneg_left (h.le_height hp.1 hq.1) hwidth.le
    have hgreatest : (q.x - p.x) * height p.y q.y ≤ (q.x - p.x) * high :=
      mul_le_mul_of_nonneg_left (h.height_le hp.2 hq.2) hwidth.le
    obtain ⟨hbelow, habove⟩ := ih hx hy
    rw [List.getLastD_cons, stripAreas, List.sum_cons]
    constructor <;> linarith

end Quadrature

end StepSignal
