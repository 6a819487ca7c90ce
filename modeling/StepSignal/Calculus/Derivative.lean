import StepSignal.Series

/-!
# Differences and derivatives

A series can be looked at over its own times or over the values of a second series that is sampled
at the same times. Derivatives are quotients of neighbouring differences. The first sample of a list
has no neighbour before it, so its difference is missing, and a missing sample makes every difference
that it takes part in missing: `order` rounds of differences leave the first `order` samples missing.
-/

namespace StepSignal

variable {α : Type} [Scalar α]

/-- The values over which a series is looked at: its times, or the values of another series that has
the same times. -/
def Series.abscissas (y : Series α) (x : Option (Series α)) : Outcome α (List α) :=
  match x with
  | none => .ok y.times
  | some x =>
    if Scalar.eqAll x.times y.times then .ok x.values else .error (.indexMismatch y.name x.name)

/-- The differences of neighbours, later minus earlier. -/
@[specialize] def gaps : List α → List α
  | a :: b :: rest => (b - a) :: gaps (b :: rest)
  | _ => []

/-- What each value adds to the one before it; for the first value that is missing. -/
@[specialize] def differences : List α → List α
  | [] => []
  | a :: rest => Scalar.missing :: gaps (a :: rest)

/-- The differences of `ys` divided by `dx`, taken `order` times. -/
@[specialize] def quotients (dx : List α) : Nat → List α → List α
  | 0, ys => ys
  | order + 1, ys => quotients dx order ((differences ys).zipWith (· / ·) dx)

/-- The derivative of a series of some order, with respect to its times or to another series. -/
def Series.derivative (y : Series α) (x : Option (Series α)) (order : Nat) :
    Outcome α (Series α) := do
  let xs ← y.abscissas x
  Series.ofValues y.name y.times (quotients (differences xs) order y.values)

end StepSignal
