import StepSignal.Table

/-!
# Squashing intervals into a window

Rows may say how long they last, in a duration column. Squashing such a table to `[start, stop)`
keeps exactly the time inside the window. With `s` for the start and `e` for the stop,

    |    s   |   e    |
    r0       r1       r2

the interval `r0` in progress at `s` is pulled forward to `s` and lasts until `r1`, rows inside the
window are carried through with the cells they have, and the last of them is cut to end at `e`. A
row at `e` itself belongs to what follows the window and is left out.

Only the row that is pulled forward and the last row inside the window get a new duration cell, the
latter even if it ends where the window does and keeps its duration.
-/

namespace StepSignal

variable {α β : Type} [Scalar α]

/-- The name of the duration column unless another one is given. -/
def defaultDurationColumn : String := "delta"

/-- A stamped row and how long it lasts. -/
abbrev Lasting (α β : Type) := Stamped α β × α

/-- The duration that a cell states; it has to be a finite number. -/
def durationOf (column : String) (cell : Cell α) : Outcome α α :=
  match cell.number? with
  | some d => if Scalar.isFinite d then .ok d else .error (.badDuration column cell)
  | none => .error (.badDuration column cell)

/-- The rows at or after `start` and at or before `stop`. -/
def rowsBetween (rows : List (Lasting α β)) (start stop : α) : List (Lasting α β) :=
  (rows.dropWhile fun row => Scalar.lt row.1.time start).takeWhile fun row =>
    Scalar.le row.1.time stop

/-- The last row at or before `start`. -/
def rowInProgress (rows : List (Lasting α β)) (start : α) : Option (Lasting α β) :=
  (rows.takeWhile fun row => Scalar.le row.1.time start).getLast?

/-- The interval in progress at `start`, pulled forward to it, unless a row sits at `start` or no
row comes before it. -/
def openingPiece (lasting : α → β → β) (rows inside : List (Lasting α β)) (start stop : α) :
    List (Stamped α β) :=
  match rowInProgress rows start with
  | none => []
  | some (row, _) =>
    match inside.head? with
    | some (next, _) =>
      if Scalar.eq next.time start then []
      else [⟨start, lasting (Scalar.min (next.time - start) (stop - start)) row.value⟩]
    | none => [⟨start, lasting (Scalar.min (stop - start) (stop - start)) row.value⟩]

/-- Carries rows through, leaves out a last row at `stop`, and cuts any other last row so that it
does not last beyond `stop`. -/
def cutAt (lasting : α → β → β) (stop : α) : List (Lasting α β) → List (Stamped α β)
  | [] => []
  | [(row, duration)] =>
    if Scalar.eq row.time stop then []
    else [{ row with value := lasting (Scalar.min (stop - row.time) duration) row.value }]
  | (row, _) :: next :: rest => row :: cutAt lasting stop (next :: rest)

/-- The pieces of lasting rows inside `[start, stop)`, for a stop that is not before the start and
not after the end of the rows; `lasting d v` is the value `v` with the duration `d`. -/
def squashRows (lasting : α → β → β) (rows : List (Lasting α β)) (start stop : α) :
    List (Stamped α β) :=
  let inside := rowsBetween rows start stop
  openingPiece lasting rows inside start stop ++ cutAt lasting stop inside

/-- The time at which the last of some lasting rows is over. -/
def dataEnd? (rows : List (Lasting α β)) : Option α :=
  rows.getLast?.map fun (row, duration) => row.time + duration

/-- The part of a table inside `[start, stop)`, where `column` holds the durations of its rows. A
stop beyond the end of the data is moved back to it. -/
def Table.squash (t : Table α) (start stop : α) (column : String) : Outcome α (Table α) := do
  unless Scalar.isFinite start && Scalar.isFinite stop do
    throw (.squashNotFinite start stop)
  if t.isEmpty then return t
  let i ← t.position column
  let durations ← (t.cellsAt i).mapM (durationOf column)
  let rows := t.rows.zip durations
  let stop := match dataEnd? rows with
    | some dataEnd => if Scalar.lt dataEnd stop then dataEnd else stop
    | none => stop
  if Scalar.lt stop start then return t.emptyLike
  let lasting := fun (d : α) (cells : List (Cell α)) => cells.set i (.num d)
  return { t with rows := squashRows lasting rows start stop }

end StepSignal
