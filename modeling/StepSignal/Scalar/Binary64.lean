import StepSignal.Scalar

/-!
# Double precision scalars

`Float` as a scalar. The missing value is NaN. A sum starts at -0.0, the only value that leaves
both zeros as they are; the extent of no points runs from the greatest of none, minus infinity, to
the least of none.

Beyond the scalar operations, this file holds what only binary floating point has: the split of a
value into an integer significand and a power of two, and the next value below.
-/

namespace StepSignal

namespace Binary64

/-- The least natural number at or above `x`, at most `2 ^ 64`. Truncation is exact, and a value
with a fraction is below `2 ^ 53`, so the truncated part converts back without rounding. -/
def ceil (x : Float) : Nat :=
  let whole := x.toUInt64
  if whole.toFloat < x then whole.toNat + 1 else whole.toNat

/-- The number of places from which on a list of values of eight bytes no longer fits into half of
the memory that 64 bits can address. -/
def placeLimit : Float := 1152921504606846976

/-- The least natural number at or above `x`, if a list can have that many places. -/
def ceil? (x : Float) : Option Nat := if placeLimit ≤ x then none else some (ceil x)

/-- The sign bit: negative values, and minus zero. -/
def isNegative (x : Float) : Bool := x.toBits.toNat ≥ 1 <<< 63

/-- The bits below the sign bit, as a number. Finite values are ordered by size as these numbers
are. -/
def magnitude (x : Float) : Nat := x.toBits.toNat % (1 <<< 63)

/-- For a finite value, the integer `m` and the exponent `q` with `|x| = m * 2 ^ q`: 53 bits with
the hidden one, or fewer at the smallest exponent. -/
def significand (x : Float) : Nat × Int :=
  let field : Nat := magnitude x / (1 <<< 52)
  let fraction : Nat := magnitude x % (1 <<< 52)
  if field = 0 then (fraction, -1074) else (fraction + 1 <<< 52, (field : Int) - 1075)

/-- The largest value below a finite `x`. Below both zeros comes the smallest negative value; of
two positive neighbours the lower has the next smaller bit pattern, of two negative ones the next
larger. -/
def below (x : Float) : Float :=
  if x == 0 then Float.ofBits 0x8000000000000001
  else if 0 < x then Float.ofBits (x.toBits - 1)
  else Float.ofBits (x.toBits + 1)

end Binary64

instance : Scalar Float where
  lt a b := a < b
  eq a b := a == b
  missing := 0.0 / 0.0
  isMissing := Float.isNaN
  isFinite := Float.isFinite
  ofInt := Float.ofInt
  sumUnit := -0.0
  emptyExtent := -1.0 / 0.0
  ceil? := Binary64.ceil?
  truncate x := x.toInt64.toInt

end StepSignal
