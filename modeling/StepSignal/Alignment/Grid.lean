import StepSignal.Calculus.Derivative

/-!
# Common grids

Two series are compared on a grid of evenly spaced times. The grid spans the times that both series
cover, and its step divides that span evenly and is at most the smallest distance between two
samples of either series. On the grid a series has the values that are in effect at its points.
-/

namespace StepSignal

variable {α : Type} [Scalar α]

/-- The smallest distance between neighbouring times of a series. -/
def Series.smallestGap (s : Series α) : Outcome α α :=
  match gaps s.times with
  | [] => .error (.tooFewSamples s.name)
  | g :: rest => .ok (rest.foldl Scalar.min g)

/-- Evenly spaced times. -/
structure TimeGrid (α : Type) where
  step : α
  points : List α
deriving DecidableEq, Repr

/-- The grid from `start` to `stop` whose step is at most `period`, if it has a number of points that
a list can have. The last point is `stop` itself and not a multiple of the step. -/
@[specialize] def TimeGrid.spanning (start stop period : α) : Outcome α (TimeGrid α) :=
  match Scalar.ceil? ((stop - start) / period) with
  | none => .error .endlessGrid
  | some 0 => .ok ⟨Scalar.zero, [start]⟩
  | some steps =>
    let step := (stop - start) / Scalar.ofInt steps
    let points := (List.range steps).map fun (k : Nat) => start + Scalar.ofInt k * step
    .ok ⟨step, points ++ [stop]⟩

/-- The times that two series both cover, from the first to the last. -/
def Series.overlap (a b : Series α) : Outcome α (α × α) :=
  match a.times.head?, b.times.head?, a.times.getLast?, b.times.getLast? with
  | some a₀, some b₀, some a₁, some b₁ =>
    let start := Scalar.max a₀ b₀
    let stop := Scalar.min a₁ b₁
    if Scalar.lt stop start then .error (.noOverlap a.name b.name) else .ok (start, stop)
  | _, _, _, _ => .error (.noOverlap a.name b.name)

/-- A series on the points of a grid, missing where it has no value yet. -/
@[specialize] def Series.resample (s : Series α) (points : List α) : Series α :=
  { s with samples := points.zipWith (fun t v => ⟨t, v.getD Scalar.missing⟩) (s.valuesAt points) }

end StepSignal
