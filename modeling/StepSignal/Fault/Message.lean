import StepSignal.Decimal.Layout
import StepSignal.Fault

/-!
# The wording of faults

One sentence for every cause, after the heading of its kind. Numbers are written out in full,
without an exponent.
-/

namespace StepSignal

/-- The text of a cell. -/
def Cell.display : Cell Float → String
  | .null => "null"
  | .bool b => if b then "true" else "false"
  | .int n => toString n.toInt
  | .num x => Decimal.plain.text x
  | .text s => s

/-- What an unknown name of a vocabulary is reported as. -/
def Vocabulary.complaint : Vocabulary → String
  | .edgeRule => "Slicing method not supported: "
  | .keep => "Unknown keep value: "
  | .signRegion => "Unsupported sign: "
  | .holdSide => "Unsupported rect step: "
  | .quadrature => "Unsupported integration method: "
  | .extremum => "Unsupported kind: "

namespace Fault

/-- The heading of a kind of cause. -/
def Kind.heading : Kind → String
  | .invalidArgument => "Invalid argument: "
  | .missingColumn => "Missing column: "
  | .dataQuality => "Data quality error: "
  | .outOfBounds => "Out of bounds: "

/-- The sentence of a cause, without its heading. -/
def sentence : Fault Float → String
  | .timeNotFinite t => "index values must be finite, got " ++ Decimal.plain.text t
  | .timesNotIncreasing a b row =>
    "index must be strictly increasing: " ++ Decimal.plain.text a ++ " followed by " ++
      Decimal.plain.text b ++ " at row " ++ toString row
  | .columnLength name cells rows =>
    "column '" ++ name ++ "' has " ++ toString cells ++ " values but the index has " ++
      toString rows
  | .duplicateColumn name => "duplicate column name '" ++ name ++ "'"
  | .seriesLength name values rows =>
    "series '" ++ name ++ "' has " ++ toString values ++ " values but the index has " ++
      toString rows
  | .replacementLength .table given rows =>
    "replacement index has " ++ toString given ++ " values, table has " ++ toString rows ++ " rows"
  | .replacementLength .series given rows =>
    "replacement index has " ++ toString given ++ " values, series has " ++ toString rows ++
      " samples"
  | .missingColumn name => name
  | .notNumeric name cell => "column '" ++ name ++ "' holds non-numeric value " ++ cell.display
  | .outOfBounds => "the data has no such rows"
  | .missingWindowBound => "window bounds must not be NaN"
  | .refitReversed a b =>
    "refit start " ++ Decimal.plain.text a ++ " is after end " ++ Decimal.plain.text b
  | .refitNotFinite => "refit bounds must be finite"
  | .squashNotFinite a b =>
    "squash bounds must be finite, got [" ++ Decimal.plain.text a ++ ", " ++
      Decimal.plain.text b ++ "]"
  | .badDuration name cell =>
    "duration column '" ++ name ++ "' holds non-numeric or missing value " ++ cell.display
  | .anyColumnAcrossTable => "all_col=false is not supported with consecutives=false"
  | .nothingToMerge => "cannot merge an empty list of tables"
  | .unknownName vocabulary text => vocabulary.complaint ++ text
  | .indexMismatch y x => "series '" ++ y ++ "' and '" ++ x ++ "' are not sampled on the same index"
  | .badRollingWindow length =>
    "rolling window must be a positive duration, got " ++ Decimal.plain.text length
  | .badMaxShift shift =>
    "max_shift must be a non-negative number, got " ++ Decimal.plain.text shift
  | .missingSamples name =>
    "series '" ++ name ++ "' holds missing values, drop them before alignment"
  | .tooFewSamples name => "series '" ++ name ++ "' needs at least 2 samples to be aligned"
  | .noOverlap a b => "series '" ++ a ++ "' and '" ++ b ++ "' do not overlap"
  | .endlessGrid => "the grid has too many points"
  | .emptyDurationColumn => "delta_column must not be empty"
  | .zeroNameLength => "comm_max_len must be >= 1"

/-- The whole message of a fault. -/
def message (fault : Fault Float) : String := fault.kind.heading ++ fault.sentence

end Fault

end StepSignal
