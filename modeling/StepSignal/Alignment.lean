import StepSignal.Alignment.Correlation
import StepSignal.Alignment.Grid

/-!
# Alignment

A series is aligned to a reference by moving it by whole steps of their common grid, to the lag at
which the two are most like each other. A largest shift caps how far it is moved, in the direction of
that lag. Samples that move in from outside of the grid are missing.
-/

namespace StepSignal

variable {α : Type} [Scalar α]

/-- How one series was aligned to another. -/
structure Alignment (α : Type) where
  /-- The reference on the common grid. -/
  reference : Series α
  /-- The other series on the same grid, moved. -/
  aligned : Series α
  /-- The number of steps that it was moved. -/
  shift : Int
  /-- The number of steps that it would be moved without a largest shift. -/
  correlationShift : Int
  /-- The smallest distance between samples; a largest shift is counted in it. -/
  period : α
  /-- The step of the grid; zero for a grid of one point. -/
  step : α
deriving DecidableEq, Repr

/-- The shift as a time. -/
def Alignment.shiftTime (a : Alignment α) : α := Scalar.ofInt a.shift * a.step

/-- The values moved by `shift` positions towards the front, with missing values in the places that
become free. -/
def shiftValues (values : List α) (shift : Int) : List α :=
  let n := values.length
  let free := List.replicate (min shift.natAbs n) Scalar.missing
  if 0 ≤ shift then values.drop shift.toNat ++ free
  else free ++ values.take (n - shift.natAbs)

/-- A shift cut down to the number of whole periods in a largest shift, with its sign. -/
def capShift (period : α) (maxShift : Option α) (shift : Int) : Int :=
  match maxShift with
  | none => shift
  | some limit =>
    let cap := Scalar.truncate (limit / period) * shift.sign
    if cap.natAbs < shift.natAbs then cap else shift

/-- Refuses a largest shift that is negative or not finite. -/
def checkMaxShift (maxShift : Option α) : Outcome α Unit :=
  match maxShift with
  | some limit =>
    if Scalar.isFinite limit && !Scalar.lt limit Scalar.zero then .ok ()
    else .error (.badMaxShift limit)
  | none => .ok ()

/-- Refuses a series with missing samples. -/
def Series.checkComplete (s : Series α) : Outcome α Unit :=
  if s.hasMissing then .error (.missingSamples s.name) else .ok ()

/-- Aligns `moved` to `reference`, by at most `maxShift` units of time. -/
@[specialize] def Series.align [Correlates α] (reference moved : Series α) (maxShift : Option α) :
    Outcome α (Alignment α) := do
  checkMaxShift maxShift
  reference.checkComplete
  moved.checkComplete
  let referenceGap ← reference.smallestGap
  let movedGap ← moved.smallestGap
  let period := Scalar.min referenceGap movedGap
  let (start, stop) ← reference.overlap moved
  let grid ← TimeGrid.spanning start stop period
  let onGrid := reference.resample grid.points
  let resampled := moved.resample grid.points
  let correlationShift := bestLag resampled.values onGrid.values
  let shift := capShift period maxShift correlationShift
  return {
    reference := onGrid
    aligned := resampled.withValues (shiftValues resampled.values shift)
    shift, correlationShift, period
    step := grid.step }

end StepSignal
