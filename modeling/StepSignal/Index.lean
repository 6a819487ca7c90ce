import StepSignal.Fault
import StepSignal.Stamped

/-!
# Indices and lookup in them

An index is the list of times of a table or a series. It is checked once, when data is built from
outside, and searched by halving after that. `locate` resolves a time to a row: a time of the index
is its own row, and a time that misses the index goes to a neighbour chosen by a `Seek`.
-/

namespace StepSignal

variable {α : Type} [Scalar α]

/-! ## Checking -/

/-- Refuses the first time that is not after the time before it; `row` is the number of the second
time of the list. -/
def checkIncreasing (row : Nat) : List α → Outcome α Unit
  | a :: b :: rest =>
    if Scalar.lt a b then checkIncreasing (row + 1) (b :: rest)
    else .error (.timesNotIncreasing a b row)
  | _ => .ok ()

/-- Accepts the indices that are `Ordered`. A time that is not finite is refused before the order
is looked at. -/
def checkIndex (index : List α) : Outcome α Unit :=
  match index.find? fun t => !Scalar.isFinite t with
  | some t => .error (.timeNotFinite t)
  | none => checkIncreasing 1 index

/-! ## Searching -/

/-- The number of leading values that satisfy `p` among the first `n`, found by halving. -/
@[specialize] def partitionPointWithin {β : Type} (p : β → Bool) (xs : List β) (n : Nat) : Nat :=
  if n < 2 then (xs.take n).countP p
  else
    let half := n / 2
    let rest := xs.drop half
    if rest.head?.any p then half + partitionPointWithin p rest (n - half)
    else partitionPointWithin p xs (n - half)
termination_by n

/-- The number of leading values that satisfy `p`, found by halving. It is the length of
`xs.takeWhile p` when no value that fails `p` comes before one that satisfies it. -/
@[specialize] def partitionPoint {β : Type} (p : β → Bool) (xs : List β) : Nat :=
  partitionPointWithin p xs xs.length

/-- How a time that misses the index is resolved. -/
inductive Seek where
  /-- To the last time at or before it. -/
  | pad
  /-- To the first time at or after it. -/
  | backfill
  /-- To the closest time, the later of two equally close ones. -/
  | nearest
deriving DecidableEq, Repr

/-- Of the rows on both sides of a time, the one whose time is closer; the later one of a tie. -/
@[specialize] def closer (index : List α) (target : α) (before after : Nat) : Option Nat :=
  match index[before]?, index[after]? with
  | some b, some a => if Scalar.lt (target - b) (a - target) then some before else some after
  | _, _ => none

/-- The row that stands for `target`, if the seek has a row to offer. A time of the index is its
own row whatever the seek. -/
@[specialize] def locate (index : List α) (target : α) (seek : Seek) : Option Nat :=
  let position := partitionPoint (Scalar.lt · target) index
  if index[position]?.any (Scalar.eq · target) then some position
  else
    let before := if position = 0 then none else some (position - 1)
    let after := if position < index.length then some position else none
    match seek with
    | .pad => before
    | .backfill => after
    | .nearest =>
      match before, after with
      | some b, some a => closer index target b a
      | b, a => b.or a

end StepSignal
