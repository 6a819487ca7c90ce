import StepSignal.Alignment
import StepSignal.Repeats
import StepSignal.Selection
import StepSignal.Signals
import StepSignal.Squash

/-!
# Settings

The choices that a whole analysis has in common: how windows meet the data, which columns have which
meaning, how far a series may be moved. Every operation under settings checks the settings first and
is then the operation itself with the choices filled in.
-/

namespace StepSignal

/-- The choices of an analysis. -/
structure Settings (α : Type) where
  /-- How the bounds of windows that miss the data are resolved. -/
  edgeRule : EdgeRule := .inclusive
  /-- Whether windows are moved into the extent of the data. -/
  clipWindow : Bool := true
  /-- The column that holds durations. -/
  durationColumn : String := defaultDurationColumn
  /-- The columns that tell signals apart; none when a table is one signal. -/
  signalColumns : List String := []
  /-- Whether initial rows move to just before the window. -/
  compressInitial : Bool := false
  pidColumn : Option String := some "pid"
  commColumn : Option String := some "comm"
  /-- The length to which command names are cut. -/
  nameLength : Nat := defaultNameLength
  /-- The largest time by which a series is moved. -/
  maxShift : Option α := none
  /-- Which of several equal rows is kept. -/
  keep : Keep := .first
deriving DecidableEq, Repr

namespace Settings

variable {α : Type}

/-- The settings for signals that have a row for every change of value. -/
def sparseEvents : Settings α := { edgeRule := .pre }

/-- The settings for data that was resampled at a lower rate. -/
def downsampled : Settings α := { edgeRule := .nearest }

/-- The settings that have a name. -/
def presets : List (String × Settings α) :=
  [("default", {}), ("sparse_events", sparseEvents), ("downsampled", downsampled)]

variable [Scalar α]

/-- Refuses settings that no operation can work with. -/
def check (s : Settings α) : Outcome α Unit := do
  if s.durationColumn.isEmpty then throw .emptyDurationColumn
  if s.nameLength = 0 then throw .zeroNameLength
  checkMaxShift s.maxShift

/-- The part of a table that a window selects. -/
def window (s : Settings α) (t : Table α) (w : Window α) : Outcome α (Table α) := do
  s.check
  t.window w s.edgeRule s.clipWindow

/-- The part of a table between two bounds, with rows at the bounds. -/
def refit (s : Settings α) (t : Table α) (start stop : Option α) : Outcome α (Table α) := do
  s.check
  t.refit start stop s.edgeRule

/-- The part of a table of lasting rows that lies inside `[start, stop)`. -/
def squash (s : Settings α) (t : Table α) (start stop : α) : Outcome α (Table α) := do
  s.check
  t.squash start stop s.durationColumn

/-- A window of a table of interleaved signals, with their initial rows. -/
def windowSignals (s : Settings Float) (t : Table Float) (w : Window Float) :
    Outcome Float (Table Float) := do
  s.check
  t.windowSignals w s.signalColumns s.compressInitial

/-- Aligns `moved` to `reference`. -/
def align [Correlates α] (s : Settings α) (reference moved : Series α) : Outcome α (Alignment α) := do
  s.check
  reference.align moved s.maxShift

/-- The rows that belong to one of the tasks or, with `invert`, to none. -/
def selectTasks (s : Settings α) (t : Table α) (tasks : List Task) (invert : Bool) :
    Outcome α (Table α) := do
  s.check
  t.selectTasks tasks s.pidColumn s.commColumn invert s.nameLength

/-- A table with one row for each run of rows that repeat each other in the signal columns, or in all
columns when there are none. -/
def withoutRepeats (s : Settings α) (t : Table α) : Outcome α (Table α) := do
  s.check
  let columns := if s.signalColumns.isEmpty then none else some s.signalColumns
  t.withoutRepeats s.keep .neighbours columns true

end Settings

end StepSignal
