import StepSignal.Cell

/-!
# Faults

Why an operation on tables or series gives no result. A fault names the cause and carries what is
needed to describe it; `Fault.kind` sorts the causes, and `StepSignal.Fault.Message` words them.
-/

namespace StepSignal

/-- A family of named choices that can be read from text. -/
inductive Vocabulary where
  | edgeRule
  | keep
  | signRegion
  | holdSide
  | quadrature
  | extremum
deriving DecidableEq, Repr

/-- The shapes of data whose times can be replaced. -/
inductive Shape where
  | table
  | series
deriving DecidableEq, Repr

/-- Why an operation gives no result. -/
inductive Fault (α : Type) where
  /-- An index holds a time that is missing or infinite. -/
  | timeNotFinite (time : α)
  /-- The time of row `row` is not after the time of the row before it. -/
  | timesNotIncreasing (before after : α) (row : Nat)
  | columnLength (column : String) (cells rows : Nat)
  | duplicateColumn (column : String)
  | seriesLength (series : String) (values rows : Nat)
  | replacementLength (shape : Shape) (times rows : Nat)
  | missingColumn (column : String)
  | notNumeric (column : String) (cell : Cell α)
  /-- A range of rows, or a single row, that the data does not have. -/
  | outOfBounds
  | missingWindowBound
  | refitReversed (start stop : α)
  | refitNotFinite
  | squashNotFinite (start stop : α)
  | badDuration (column : String) (cell : Cell α)
  /-- Rows that repeat in some column only cannot be found across a whole table. -/
  | anyColumnAcrossTable
  | nothingToMerge
  | unknownName (vocabulary : Vocabulary) (text : String)
  | indexMismatch (y x : String)
  | badRollingWindow (length : α)
  | badMaxShift (shift : α)
  | missingSamples (series : String)
  | tooFewSamples (series : String)
  | noOverlap (reference moved : String)
  /-- A grid with more points than a list can have. -/
  | endlessGrid
  | emptyDurationColumn
  | zeroNameLength
deriving DecidableEq, Repr

/-- The four kinds of cause. -/
inductive Fault.Kind where
  | invalidArgument
  | missingColumn
  | dataQuality
  | outOfBounds
deriving DecidableEq, Repr

/-- The kind of a cause: a request that cannot be met, a column that is not there, data that is
incomplete where it has to be complete, or rows that there are not or cannot be. -/
def Fault.kind {α : Type} : Fault α → Fault.Kind
  | .missingColumn _ => .missingColumn
  | .badDuration .. => .dataQuality
  | .missingSamples _ => .dataQuality
  | .outOfBounds => .outOfBounds
  | .endlessGrid => .outOfBounds
  | _ => .invalidArgument

/-- The outcome of an operation on data with times and samples in `α`. -/
abbrev Outcome (α β : Type) := Except (Fault α) β

end StepSignal
