import StepSignal.Repeats
import StepSignal.Scalar.Binary64
import StepSignal.Window.Refit

/-!
# Interleaved signals

A table may interleave the rows of several signals, told apart by the cells of some key columns.
`Table.splitSignals` separates them. `Table.windowSignals` windows the whole table and adds, for
every signal that is alive at the start of the window, the row that is in effect there, so that no
signal starts without a value.
-/

namespace StepSignal

/-- The rows of a table that share the cells of its key columns. -/
structure Signal (α : Type) where
  key : List (String × Cell α)
  data : Table α
deriving DecidableEq, Repr

/-- The key cell of a column; of a column given twice, the first. -/
def Signal.keyCell? {α : Type} (s : Signal α) (column : String) : Option (Cell α) :=
  s.key.lookup column

variable {α : Type} [Scalar α]

/-- The cells of a row that make up its key. -/
def keyOf (positions : List Nat) (row : Stamped α (List (Cell α))) : List (Cell α) :=
  positions.map (cellAt row)

/-- The different keys of some rows in ascending order, each as its first row writes it. -/
def sortedKeys (positions : List Nat) (rows : List (Stamped α (List (Cell α)))) :
    List (List (Cell α)) :=
  (firstOccurrences Cell.sameAll (rows.map (keyOf positions))).mergeSort fun a b =>
    (Cell.orderAll a b).isLE

/-- The rows of a table that have a key. -/
def Table.rowsOfKey (t : Table α) (positions : List Nat) (key : List (Cell α)) : Table α :=
  { t with rows := t.rows.filter fun row => Cell.sameAll (keyOf positions row) key }

/-- One signal for every key that occurs, in ascending order of keys; the whole table is one signal
when there are no key columns. With `alignStart` every signal is refitted to start with the table. -/
def Table.splitSignals (t : Table α) (keyColumns : List String) (alignStart : Bool) :
    Outcome α (List (Signal α)) := do
  if keyColumns.isEmpty then return [⟨[], t⟩]
  let positions ← t.positions keyColumns
  (sortedKeys positions t.rows).mapM fun key => do
    let data := t.rowsOfKey positions key
    let data ← if alignStart then data.refit t.times.head? none .inclusive else pure data
    return ⟨keyColumns.zip key, data⟩

/-- Whether a time lies between the first and the last row of a table, both included. -/
def Table.spans (t : Table α) (time : α) : Bool :=
  t.times.head?.any (Scalar.le · time) && t.times.getLast?.any (Scalar.le time ·)

/-- The `k` largest values below `first`, in ascending order. -/
def timesBelow (first : Float) : Nat → List Float
  | 0 => []
  | k + 1 => timesBelow (Binary64.below first) k ++ [Binary64.below first]

/-- The rows that signals have at the start of a window that opens at `first`: the first row of each
signal's own window, where that row is earlier, in order of time. -/
def initialRows (signals : List (Signal Float)) (w : Window Float) (first : Float) :
    Outcome Float (List (Stamped Float (List (Cell Float)))) := do
  let heads ← signals.mapM fun s => do
    let windowed ← s.data.window w .pre true
    windowed.slice 0 1
  let rows := heads.flatMap (·.rows)
  return (rows.filter fun row => row.time < first).mergeSort fun a b => a.time ≤ b.time

/-- Windows a table of interleaved signals and puts the initial rows of the signals that are alive
at the start of the window in front. With `compress` these rows do not keep their own times but get
the largest ones below the first row of the window. -/
def Table.windowSignals (t : Table Float) (w : Window Float) (keyColumns : List String)
    (compress : Bool) : Outcome Float (Table Float) := do
  let signals ← t.splitSignals keyColumns false
  let windowed ← t.window w .pre true
  match windowed.times.head?, w.start.or t.times.head? with
  | some first, some start =>
    let alive := signals.filter fun s => s.data.spans start
    let initial ← initialRows alive w first
    let initial : Table Float := { t with rows := initial }
    let initial ←
      if compress then initial.withTimes (timesBelow first initial.length) else pure initial
    return { t with rows := initial.rows ++ windowed.rows }
  | _, _ => return windowed

end StepSignal
