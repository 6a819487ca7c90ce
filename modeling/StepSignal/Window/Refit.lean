import StepSignal.Window

/-!
# Windows with rows at both bounds

Refitting windows the data, clipped, and then relabels the outermost rows with the bounds asked
for, so that the result has rows at exactly those times. The relabelled index is checked like one
from outside. When the two bounds coincide only one row can carry them, and the row in effect at
the start stays.
-/

namespace StepSignal

variable {α β : Type} [Scalar α]

/-- Gives the last row the time `stop` and then the first row the time `start`, as far as each is
set; a single row ends up at `start`. -/
def relabel (index : List α) (start stop : Option α) : List α :=
  let closed := match stop with
    | some t => index.modify (index.length - 1) fun _ => t
    | none => index
  match start with
    | some t => closed.modify 0 fun _ => t
    | none => closed

/-- Refuses bounds in the wrong order, then bounds that are not finite. -/
def checkRefit (start stop : Option α) : Outcome α Unit := do
  if let (some a, some b) := (start, stop) then
    if Scalar.lt b a then throw (.refitReversed a b)
  unless start.all Scalar.isFinite && stop.all Scalar.isFinite do
    throw .refitNotFinite

/-- The rows of the clipped window, or only the first of them when both bounds are set and equal. -/
def refitRows (rows : List (Stamped α β)) (start stop : Option α) (rule : EdgeRule) :
    Outcome α (List (Stamped α β)) := do
  let windowed ← windowRows rows ⟨start, stop⟩ rule true
  match start, stop with
  | some a, some b => return if Scalar.eq a b then windowed.take 1 else windowed
  | _, _ => return windowed

/-- The part of a table between two bounds, with rows at the bounds. -/
def Table.refit (t : Table α) (start stop : Option α) (rule : EdgeRule) : Outcome α (Table α) := do
  checkRefit start stop
  let rows ← refitRows t.rows start stop rule
  { t with rows }.withTimes (relabel (Stamped.times rows) start stop)

/-- The part of a series between two bounds, with samples at the bounds. -/
def Series.refit (s : Series α) (start stop : Option α) (rule : EdgeRule) :
    Outcome α (Series α) := do
  checkRefit start stop
  let samples ← refitRows s.samples start stop rule
  { s with samples }.withTimes (relabel (Stamped.times samples) start stop)

end StepSignal
