import StepSignal.Document
import StepSignal.Scalar.Binary64
import StepSignal.Window

/-!
# Documents of tables and series

How cells, columns, tables, series and windows are written as documents and read back. Tables and
series are checked when they are read, like those that come from anywhere else.

A missing sample of a series is written as an absent value.
-/

namespace StepSignal

/-! ## Cells and columns -/

namespace Cell

/-- The names of the kinds of cell. -/
def kindNames : List String := ["Null", "Bool", "Int", "Float", "Str"]

def toDocument : Cell Float → Document
  | .null => .text "Null"
  | .bool b => .choice "Bool" (.bool b)
  | .int n => .choice "Int" (.ofInt n.toInt)
  | .num x => .choice "Float" (.float x)
  | .text s => .choice "Str" (.text s)

def ofDocument? (dialect : Dialect) (d : Document) : Option (Cell Float) := do
  let c ← d.choice? kindNames
  match c.position with
  | 0 => if c.isBare dialect then some .null else none
  | 1 => (c.carried Document.bool?).map .bool
  | 2 => (c.carried Document.int64?).map .int
  | 3 => (c.carried Document.float?).map .num
  | _ => (c.carried Document.text?).map .text

end Cell

namespace Column

def toDocument (c : Column Float) : Document :=
  .record [("name", .text c.name), ("values", .list (c.cells.map Cell.toDocument))]

def ofDocument? (dialect : Dialect) (d : Document) : Option (Column Float) := do
  let fields ← d.fields? dialect ["name", "values"]
  let name ← fields.required 0 Document.text?
  let cells ← fields.required 1 (Document.list? (Cell.ofDocument? dialect))
  return ⟨name, cells⟩

end Column

/-! ## Tables and series -/

/-- The document of a list of times. -/
def indexDocument (index : List Float) : Document := .list (index.map .float)

namespace Table

def toDocument (t : Table Float) : Document :=
  .record [
    ("index", indexDocument t.times),
    ("columns", .list (t.columns.map Column.toDocument))]

def ofDocument? (dialect : Dialect) (d : Document) : Option (Table Float) := do
  let fields ← d.fields? dialect ["index", "columns"]
  let index ← fields.required 0 Document.floats?
  let columns ← fields.required 1 (Document.list? (Column.ofDocument? dialect))
  (Table.ofColumns index columns).toOption

end Table

namespace Series

/-- The document of a sample. -/
def sampleDocument (x : Float) : Document := if x.isNaN then .null else .float x

/-- The sample of a document. -/
def sampleOf? (d : Document) : Option Float :=
  (d.option? Document.float?).map (·.getD Scalar.missing)

def toDocument (s : Series Float) : Document :=
  .record [
    ("name", .text s.name),
    ("index", indexDocument s.times),
    ("values", .list (s.values.map sampleDocument))]

def ofDocument? (dialect : Dialect) (d : Document) : Option (Series Float) := do
  let fields ← d.fields? dialect ["name", "index", "values"]
  let name ← fields.required 0 Document.text?
  let index ← fields.required 1 Document.floats?
  let values ← fields.required 2 (Document.list? sampleOf?)
  (Series.ofValues name index values).toOption

end Series

/-! ## Windows -/

namespace Window

def toDocument (w : Window Float) : Document :=
  .record [
    ("start", .ofOption .float w.start),
    ("end", .ofOption .float w.stop)]

def ofDocument? (dialect : Dialect) (d : Document) : Option (Window Float) := do
  let fields ← d.fields? dialect ["start", "end"]
  let start ← fields.optional 0 Document.float?
  let stop ← fields.optional 1 Document.float?
  return ⟨start, stop⟩

end Window

end StepSignal
