import StepSignal.Alignment.Transform
import StepSignal.Scalar.Exact

/-!
# Circular correlation

Two sequences of the same length `n` are correlated around a circle: at the place `s` the correlation
is

    c s = sum over m of a ((m + s) mod n) * r m

How it is computed depends on the scalars. Exact numbers are added up as the definition says; doubles
go through Fourier transforms, which takes far fewer steps in long sequences. There a number that
overflows or is infinite spoils the correlation at every place.
-/

namespace StepSignal

variable {α : Type} [Scalar α]

/-- Adds the products of two sequences, position by position, to `total`. -/
@[specialize] def addProducts (total : α) : List α → List α → α
  | a :: as, r :: rs => addProducts (total + a * r) as rs
  | _, _ => total

/-- The circular correlation of `a` with `r` at one place. -/
def circularCorrelationAt (a r : List α) (s : Nat) : α :=
  addProducts Scalar.sumUnit (a.rotateLeft s) r

/-- Scalars whose sequences can be correlated around a circle. -/
class Correlates (α : Type) where
  /-- The circular correlations of two sequences of length `2 ^ levels` at all places, in order. -/
  circularCorrelations : (levels : Nat) → List α → List α → List α

instance : Correlates Exact where
  circularCorrelations levels a r := (List.range (1 <<< levels)).map (circularCorrelationAt a r)

instance : Correlates Float where
  circularCorrelations := transformedCorrelations

end StepSignal
