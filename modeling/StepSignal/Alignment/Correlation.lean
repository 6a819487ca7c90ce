import StepSignal.Alignment.Circular

/-!
# Cross-correlation

The correlation of a sequence `a` with a reference `r` of the same length `n` is, at the lag `d`,

    c d = sum over m of a (m + d) * r m

taken over the `m` for which both positions exist. There are `2 n` lags, from `-n` to `n - 1`; at the
first of them nothing overlaps and the sum is empty.

Short sequences are correlated lag by lag. Long ones are padded with zeros and correlated around a
circle, where each lag has a place of its own; there an infinite number spoils every lag.

The best lag is one whose correlation reaches the peak. Correlations closer to the peak than a small
fraction of the largest magnitude count as ties, and of the tied lags the smallest one is taken.
-/

namespace StepSignal

variable {α : Type} [Scalar α]

/-- The correlation of `a` with `r` at one lag. -/
@[specialize] def correlationAt (a r : List α) (lag : Int) : α :=
  addProducts Scalar.sumUnit (a.drop lag.toNat) (r.drop (-lag).toNat)

/-- The lags of sequences of length `n`, in order. -/
def lags (n : Nat) : List Int := (List.range (2 * n)).map fun (j : Nat) => (j : Int) - n

/-- The length up to which every lag is correlated by itself. -/
def separateLimit : Nat := 512

/-- The least number of doublings of 1 that gives a place to each lag of sequences of length `n`, for
`n` above zero. -/
def paddedLevels (n : Nat) : Nat := (2 * n - 1).log2 + 1

/-- The length that sequences of length `n` are padded to before they are correlated around a circle:
the least power of two that has a place for every lag. -/
def paddedLength (n : Nat) : Nat := 1 <<< paddedLevels n

/-- The place of a lag on a circle of `size` places; negative lags are counted from the end. -/
def lagPlace (size : Nat) (lag : Int) : Nat := (lag % size).toNat

/-- The correlations of `a` with `r` at all lags, from their circular correlations after padding with
zeros. The padding is as long as the sequences, so that nothing meets around the circle that does not
meet at a lag. -/
@[specialize] def paddedCorrelations [Correlates α] (a r : List α) : List α :=
  let n := a.length
  let size := paddedLength n
  let padded (xs : List α) : List α := xs.rightpad size Scalar.zero
  let circle := (Correlates.circularCorrelations (paddedLevels n) (padded a) (padded r)).toArray
  (lags n).map fun lag => circle.getD (lagPlace size lag) Scalar.zero

/-- The correlations of `a` with `r` at all lags. -/
@[specialize] def correlations [Correlates α] (a r : List α) : List α :=
  if a.length ≤ separateLimit then (lags a.length).map (correlationAt a r)
  else paddedCorrelations a r

/-- The largest distance of some values from zero. -/
@[specialize] def magnitude (xs : List α) : α :=
  xs.foldl (fun m x => Scalar.max m (Scalar.abs x)) Scalar.zero

/-- The fraction of the largest magnitude within which correlations count as equal. -/
def tieTolerance : α := Scalar.ofInt 1 / Scalar.ofInt 1000000000

/-- The correlation from which on a lag is as good as the best one. -/
@[specialize] def tieThreshold (cs : List α) : α :=
  let peak := match cs with
    | [] => Scalar.zero
    | c :: rest => rest.foldl Scalar.max c
  peak - magnitude cs * tieTolerance

/-- The smallest lag whose correlation reaches a threshold, the first of two equally small ones. -/
@[specialize] def smallestLag (threshold : α) (lagged : List (Int × α)) : Option Int :=
  lagged.foldl (fun best (lag, c) =>
    if Scalar.le threshold c && best.all (lag.natAbs < ·.natAbs) then some lag else best) none

/-- The lag at which `a` is most like `r`; zero when no correlation compares with the peak. -/
@[specialize] def bestLag [Correlates α] (a r : List α) : Int :=
  let cs := correlations a r
  (smallestLag (tieThreshold cs) ((lags a.length).zip cs)).getD 0

end StepSignal
