import StepSignal.Calculus.Area

/-!
# Local extrema

A sample is a local minimum when it is at or below both of its neighbours, and a local maximum when
it is at or above both, so that all of a plateau counts. At either end the missing neighbour is the
sample itself. A missing sample is no extremum, and neither are its neighbours.

The local extrema of both kinds span the tunnel in which a signal oscillates.
-/

namespace StepSignal

/-- The two kinds of local extremum. -/
inductive Extremum where
  | minimum
  | maximum
deriving DecidableEq, Repr

namespace Extremum

/-- The name of a kind, in requests and in stored data. -/
def name : Extremum → String
  | minimum => "min"
  | maximum => "max"

/-- Both kinds. -/
def all : List Extremum := [minimum, maximum]

/-- The kind of a name. -/
def ofName {α : Type} (text : String) : Outcome α Extremum :=
  match all.find? (·.name == text) with
  | some kind => .ok kind
  | none => .error (.unknownName .extremum text)

end Extremum

variable {α : Type} [Scalar α]

/-- Whether a value is as extreme as its neighbour `other`. -/
def Extremum.holds (kind : Extremum) (v other : α) : Bool :=
  match kind with
  | .minimum => Scalar.le v other
  | .maximum => Scalar.le other v

/-- The local extrema among some samples; `before` is the sample before the first of them. -/
def extremaAfter (kind : Extremum) (before : α) : List (Stamped α α) → List (Stamped α α)
  | [] => []
  | s :: rest =>
    let after := (rest.head?.map (·.value)).getD s.value
    if kind.holds s.value before && kind.holds s.value after then
      s :: extremaAfter kind s.value rest
    else extremaAfter kind s.value rest

/-- The samples of a series that are local extrema of a kind. -/
def Series.localExtrema (s : Series α) (kind : Extremum) : Series α :=
  match s.samples with
  | [] => s
  | first :: rest => { s with samples := extremaAfter kind first.value (first :: rest) }

/-- The middle of the tunnel that a series ranges in, between the mean of its local maxima and the
mean of its local minima. -/
def Series.tunnelMean (s : Series α) : Outcome α α := do
  let upper ← (s.localExtrema .maximum).mean none none .standard
  let lower ← (s.localExtrema .minimum).mean none none .standard
  return (upper - lower) / Scalar.ofInt 2 + lower

end StepSignal
