import StepSignal.Scalar

/-!
# Exact scalars

The rational numbers with one missing value. Arithmetic does not round and has no infinities: a
quotient by zero is missing. Rules that hold of `Float` only up to rounding are equations here.
-/

namespace StepSignal

/-- A rational number, or the missing value. -/
inductive Exact where
  | missing
  | num (value : Rat)
deriving DecidableEq, Repr

namespace Exact

/-- Applies an operation to two numbers; the result is missing when either operand is. -/
def map₂ (f : Rat → Rat → Rat) : Exact → Exact → Exact
  | num a, num b => num (f a b)
  | _, _ => missing

/-- The quotient, missing when the divisor is zero. -/
def div : Exact → Exact → Exact
  | num a, num b => if b = 0 then missing else num (a / b)
  | _, _ => missing

/-- Compares two numbers; no comparison holds of the missing value. -/
def holds (r : Rat → Rat → Bool) : Exact → Exact → Bool
  | num a, num b => r a b
  | _, _ => false

/-- The integer part of a rational, towards zero. -/
def truncateRat (q : Rat) : Int := q.num.tdiv q.den

end Exact

instance : Scalar Exact where
  add := Exact.map₂ (· + ·)
  sub := Exact.map₂ (· - ·)
  mul := Exact.map₂ (· * ·)
  div := Exact.div
  lt := Exact.holds fun a b => decide (a < b)
  eq := Exact.holds fun a b => decide (a = b)
  missing := .missing
  isMissing x := match x with
    | .missing => true
    | .num _ => false
  isFinite x := match x with
    | .missing => false
    | .num _ => true
  ofInt n := .num n
  sumUnit := .num 0
  emptyExtent := .missing
  ceil? x := match x with
    | .missing => some 0
    | .num q => some q.ceil.toNat
  truncate x := match x with
    | .missing => 0
    | .num q => Exact.truncateRat q

end StepSignal
