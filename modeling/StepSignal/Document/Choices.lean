import StepSignal.Calculus.Extrema
import StepSignal.Document
import StepSignal.Settings

/-!
# Documents of choices

How the named choices of the library, tasks and settings are written as documents and read back.
Settings that a document leaves out keep their standard values.
-/

namespace StepSignal

/-! ## Named choices -/

namespace EdgeRule

def toDocument (rule : EdgeRule) : Document := .text rule.name

def ofDocument? (dialect : Dialect) (d : Document) : Option EdgeRule := d.named? dialect all name

end EdgeRule

namespace Keep

def toDocument (keep : Keep) : Document := .text keep.name

def ofDocument? (dialect : Dialect) (d : Document) : Option Keep := d.named? dialect all name

end Keep

namespace SignRegion

def toDocument (region : SignRegion) : Document := .text region.name

def ofDocument? (dialect : Dialect) (d : Document) : Option SignRegion := d.named? dialect all name

end SignRegion

namespace HoldSide

def toDocument (side : HoldSide) : Document := .text side.name

def ofDocument? (dialect : Dialect) (d : Document) : Option HoldSide := d.named? dialect all name

end HoldSide

namespace Extremum

def toDocument (kind : Extremum) : Document := .text kind.name

def ofDocument? (dialect : Dialect) (d : Document) : Option Extremum := d.named? dialect all name

end Extremum

namespace Quadrature

def toDocument : Quadrature → Document
  | rectangles side => .choice "rect" side.toDocument
  | trapezoids => .text "trapz"
  | simpson => .text "simpson"

def ofDocument? (dialect : Dialect) (d : Document) : Option Quadrature := do
  let c ← d.choice? ["rect", "trapz", "simpson"]
  match c.position with
  | 0 => (c.carried (HoldSide.ofDocument? dialect)).map rectangles
  | 1 => if c.isBare dialect then some trapezoids else none
  | _ => if c.isBare dialect then some simpson else none

end Quadrature

/-! ## Tasks and settings -/

namespace Task

def toDocument (task : Task) : Document :=
  .record [
    ("pid", .ofOption (fun pid => .ofInt pid.toInt) task.pid),
    ("comm", .ofOption .text task.comm)]

def ofDocument? (dialect : Dialect) (d : Document) : Option Task := do
  let fields ← d.fields? dialect ["pid", "comm"]
  let pid ← fields.optional 0 Document.int64?
  let comm ← fields.optional 1 Document.text?
  return ⟨pid, comm⟩

end Task

namespace Settings

/-- The names of the settings. -/
def fieldNames : List String :=
  ["edge_method", "clip_window", "delta_column", "signal_columns", "compress_init", "pid_column",
    "comm_column", "comm_max_len", "max_shift", "dedup_keep"]

def toDocument (s : Settings Float) : Document :=
  .record [
    ("edge_method", s.edgeRule.toDocument),
    ("clip_window", .bool s.clipWindow),
    ("delta_column", .text s.durationColumn),
    ("signal_columns", .list (s.signalColumns.map .text)),
    ("compress_init", .bool s.compressInitial),
    ("pid_column", .ofOption .text s.pidColumn),
    ("comm_column", .ofOption .text s.commColumn),
    ("comm_max_len", .natural s.nameLength),
    ("max_shift", .ofOption .float s.maxShift),
    ("dedup_keep", s.keep.toDocument)]

def ofDocument? (dialect : Dialect) (d : Document) : Option (Settings Float) := do
  let fields ← d.fields? dialect fieldNames
  let standard : Settings Float := {}
  let edgeRule ← fields.orElse 0 (EdgeRule.ofDocument? dialect) standard.edgeRule
  let clipWindow ← fields.orElse 1 Document.bool? standard.clipWindow
  let durationColumn ← fields.orElse 2 Document.text? standard.durationColumn
  let signalColumns ← fields.orElse 3 (Document.list? Document.text?) standard.signalColumns
  let compressInitial ← fields.orElse 4 Document.bool? standard.compressInitial
  let pidColumn ← fields.orElse 5 (Document.option? Document.text?) standard.pidColumn
  let commColumn ← fields.orElse 6 (Document.option? Document.text?) standard.commColumn
  let nameLength ← fields.orElse 7 (Document.natBelow? UInt64.size) standard.nameLength
  let maxShift ← fields.orElse 8 (Document.option? Document.float?) standard.maxShift
  let keep ← fields.orElse 9 (Keep.ofDocument? dialect) standard.keep
  return {
    edgeRule, clipWindow, durationColumn, signalColumns, compressInitial, pidColumn, commColumn,
    nameLength, maxShift, keep }

end Settings

end StepSignal
