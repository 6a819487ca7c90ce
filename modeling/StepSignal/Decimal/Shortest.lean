import StepSignal.Scalar.Binary64

/-!
# The shortest decimal that reads back

A finite double is an integer times a power of two, `m * 2 ^ q`, and every real number of an
interval around it reads back as that double: up to half a step on either side, a quarter step
below a power of two, with the ends of the interval included exactly when `m` is even.

A decimal with few digits is a point of a coarse decimal grid. `shortest` walks the grids from
coarse to fine and tries on each the two points next to the value, which suffices: when a grid has
a point in the interval, one of these two is in it. The comparisons are made on natural numbers,
scaled so that no fraction is left.
-/

namespace StepSignal.Decimal

/-- The decimal number `digits * 10 ^ exponent`. -/
structure Digits where
  digits : Nat
  exponent : Int
deriving DecidableEq, Repr

/-- Which of two decimals is taken that are equally close to the value. -/
inductive Tie where
  /-- The one whose last digit is even. -/
  | even
  /-- The larger one. -/
  | up
deriving DecidableEq, Repr

/-- What a double has to be compared with on the decimal grid of a step `10 ^ e`, all in one
integer unit. -/
structure Grid where
  /-- The double itself. -/
  value : Nat
  /-- The ends of the interval that reads back as the double. -/
  low : Nat
  high : Nat
  /-- Whether the ends themselves read back. -/
  closed : Bool
  /-- The step of the grid. -/
  step : Nat

/-- The comparison of `m * 2 ^ q` with the grid of step `10 ^ e`. The unit is a quarter of a step
of the doubles, made finer until the step of the grid is a whole number of units as well. -/
def grid (m : Nat) (q e : Int) : Grid :=
  let scale := Nat.pow 10 (-e).toNat <<< (q - 2).toNat
  let gapBelow := if m = 1 <<< 52 ∧ q > -1074 then 1 else 2
  { value := 4 * m * scale
    low := (4 * m - gapBelow) * scale
    high := (4 * m + 2) * scale
    closed := m % 2 = 0
    step := Nat.pow 10 e.toNat <<< (2 - q).toNat }

/-- Whether the point `c` of a grid reads back as the double. -/
def Grid.reads (g : Grid) (c : Nat) : Bool :=
  if g.closed then g.low ≤ c * g.step && c * g.step ≤ g.high
  else g.low < c * g.step && c * g.step < g.high

/-- Of the two points of a grid next to the double, the one that reads back, and the closer one
when both do. -/
def Grid.hit (tie : Tie) (g : Grid) : Option Nat :=
  let c := g.value / g.step
  match g.reads c, g.reads (c + 1) with
  | false, false => none
  | true, false => some c
  | false, true => some (c + 1)
  | true, true =>
    match compare (g.value - c * g.step) ((c + 1) * g.step - g.value), tie with
    | .lt, _ => some c
    | .gt, _ => some (c + 1)
    | .eq, .up => some (c + 1)
    | .eq, .even => some (if c % 2 = 0 then c else c + 1)

/-- The exponent of a decimal grid that is coarser than `m * 2 ^ q` is large; 30103 / 100000 is
just above the decimal logarithm of two. -/
def coarsest (m : Nat) (q : Int) : Int := ((m.log2 + 1 : Int) + q) * 30103 / 100000 + 1

/-- The decimal with the fewest digits that reads back as `m * 2 ^ q`, and the closest of those.
Seventeen digits always suffice, which is fewer than twenty grids away from the coarsest. -/
def shortest (tie : Tie) (m : Nat) (q : Int) : Digits :=
  let start := coarsest m q
  let found := (List.range 20).findSome? fun (k : Nat) =>
    ((grid m q (start - k)).hit tie).map fun c => Digits.mk c (start - k)
  found.getD ⟨(m * Nat.pow 5 (-q).toNat) <<< q.toNat, -((-q).toNat : Int)⟩

end StepSignal.Decimal
