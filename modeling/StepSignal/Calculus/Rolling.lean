import StepSignal.Calculus.Area

/-!
# Rolling windows

A rolling window of length `w` holds, at a sample of time `t`, the samples in `(t - w, t]`. A
statistic of each window makes a new series, labelled with the time of the sample or, centred, with
`t - w / 2`. The new labels are checked like an index from outside, because rounding may make two of
them equal.
-/

namespace StepSignal

variable {α : Type} [Scalar α]

/-! ## Statistics -/

/-- A summary of the samples in a window. -/
inductive Statistic where
  | sum
  | count
  /-- The value of the first sample. -/
  | first
  /-- The value of the last sample. -/
  | last
  /-- The time from the first to the last sample. -/
  | span
  /-- The mean by trapezoids. -/
  | mean
deriving DecidableEq, Repr

namespace Statistic

/-- The name of a statistic in requests. -/
def name : Statistic → String
  | sum => "sum"
  | count => "count"
  | first => "first"
  | last => "last"
  | span => "span"
  | mean => "mean"

/-- All statistics. -/
def all : List Statistic := [sum, count, first, last, span, mean]

/-- The first and the last of some samples, of which there has to be one. -/
def ends (s : Series α) : Outcome α (Stamped α α × Stamped α α) :=
  match s.samples.head?, s.samples.getLast? with
  | some a, some b => .ok (a, b)
  | _, _ => .error .outOfBounds

/-- The value of a statistic. -/
def apply (statistic : Statistic) (s : Series α) : Outcome α α :=
  match statistic with
  | sum => .ok (s.values.foldl (· + ·) Scalar.zero)
  | count => .ok (Scalar.ofInt s.length)
  | first => (ends s).map fun (a, _) => a.value
  | last => (ends s).map fun (_, b) => b.value
  | span => (ends s).map fun (a, b) => b.time - a.time
  | mean => s.mean none none .trapezoids

end Statistic

/-! ## Windows -/

/-- The samples in the window that ends with sample `row`, whose time is `t`. -/
def Series.rollingWindow (s : Series α) (length : α) (row : Nat) (t : α) : Series α :=
  let start := partitionPoint (Scalar.le · (t - length)) s.times
  { s with samples := Stamped.extract s.samples start (row + 1) }

/-- The series of a statistic over all rolling windows of a length. -/
def Series.rolling (s : Series α) (statistic : Series α → Outcome α α) (length : α)
    (centred : Bool) : Outcome α (Series α) := do
  unless Scalar.isFinite length && Scalar.lt Scalar.zero length do
    throw (.badRollingWindow length)
  let values ← s.times.zipIdx.mapM fun (t, row) => statistic (s.rollingWindow length row t)
  let labels := if centred then s.times.map (· - length / Scalar.ofInt 2) else s.times
  Series.ofValues s.name labels values

end StepSignal
