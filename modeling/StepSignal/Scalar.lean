/-!
# Scalars: the numbers that times and samples are made of

Every rule of the library that computes with times or samples is written once, over the operations
collected here. A scalar is a number or the one *missing* value, which compares with nothing and
swallows every arithmetic operation it meets. Two kinds of scalar exist:

* `Float`, in `StepSignal.Scalar.Binary64`, where every operation rounds;
* `Exact`, in `StepSignal.Scalar.Exact`, the rational numbers, where none does.

The functions of this file are defined from the class and hold for both.
-/

namespace StepSignal

/-- Numbers with one missing value, and the operations that the library performs on them. -/
class Scalar (α : Type) extends Add α, Sub α, Mul α, Div α where
  /-- Numeric order; false as soon as one side is missing. -/
  lt : α → α → Bool
  /-- Numeric equality; false as soon as one side is missing. -/
  eq : α → α → Bool
  /-- The value that stands for a sample that was not taken. -/
  missing : α
  /-- Whether a value is the missing one. -/
  isMissing : α → Bool
  /-- Whether a value is a number proper, neither missing nor infinite. -/
  isFinite : α → Bool
  /-- The scalar nearest to an integer. -/
  ofInt : Int → α
  /-- What a sum is before its first term: adding to it changes no term, not even the sign of a
  zero. -/
  sumUnit : α
  /-- The extent of no points at all, from the greatest of none to the least of none. -/
  emptyExtent : α
  /-- The least natural number at or above a value, zero for what is missing or negative; none when
  no list can have that many places. -/
  ceil? : α → Option Nat
  /-- The integer part of a value, towards zero. -/
  truncate : α → Int

namespace Scalar

variable {α : Type} [Scalar α]

/-- The number zero. -/
def zero : α := ofInt 0

/-- At or below in numeric order. -/
def le (a b : α) : Bool := lt a b || eq a b

/-- The smaller of two values, the second of two equal ones; what is missing is passed over. -/
@[specialize] def min (a b : α) : α :=
  if lt a b || isMissing b then a else b

/-- The larger of two values, the second of two equal ones; what is missing is passed over. -/
@[specialize] def max (a b : α) : α :=
  if lt b a || isMissing b then a else b

/-- The distance of a value from zero. -/
@[specialize] def abs (a : α) : α := if lt a zero then zero - a else a

/-- Adds up values from left to right. -/
@[specialize] def sum (xs : List α) : α := xs.foldl (· + ·) sumUnit

/-- Whether two values are the same as cells of a table: equal numbers, or both missing. -/
def same (a b : α) : Bool := eq a b || (isMissing a && isMissing b)

/-- The order in which cells are sorted: numbers by size, then what is missing. -/
def order (a b : α) : Ordering :=
  if lt a b then .lt
  else if lt b a then .gt
  else compare (isMissing a).toNat (isMissing b).toNat

/-- Whether two lists hold equal numbers in the same order; a missing value equals nothing. -/
def eqAll : List α → List α → Bool
  | [], [] => true
  | a :: as, b :: bs => eq a b && eqAll as bs
  | _, _ => false

end Scalar

end StepSignal
