import StepSignal.Index

/-!
# Tables

A table has named columns and stamped rows. A row carries one cell for each column, in column
order. `Table.Valid` is what every table built by this library satisfies: finite and strictly
increasing times, rows as wide as the table, and column names that differ.

Tables come in from outside as an index and a list of columns (`Table.ofColumns`), and every check
is made there; row `i` of the table then holds the `i`-th cell of each column.
-/

namespace StepSignal

/-- A named list of cells. -/
structure Column (α : Type) where
  name : String
  cells : List (Cell α)
deriving DecidableEq, Repr

/-- Named columns over stamped rows. -/
structure Table (α : Type) where
  names : List String
  rows : List (Stamped α (List (Cell α)))
deriving DecidableEq, Repr

/-- One row of a table together with its position and the names of its cells. -/
structure Row (α : Type) where
  position : Nat
  time : α
  cells : List (String × Cell α)
deriving DecidableEq, Repr

/-- The cell of a row in the column at position `i`. -/
def cellAt {α : Type} (row : Stamped α (List (Cell α))) (i : Nat) : Cell α := row.value.getD i .null

/-- The values of a list that a list of choices keeps. -/
def pick {β : Type} (choices : List Bool) (xs : List β) : List β :=
  (xs.zip choices).filterMap fun (x, keep) => if keep then some x else none

/-- The cell of the first column called `name`. -/
def Row.get? {α : Type} (row : Row α) (name : String) : Option (Cell α) := row.cells.lookup name

namespace Table

variable {α : Type}

/-! ## Reading -/

/-- The times of the rows. -/
def times (t : Table α) : List α := Stamped.times t.rows

def length (t : Table α) : Nat := t.rows.length

def isEmpty (t : Table α) : Bool := t.rows.isEmpty

/-- The position of the column called `name`. -/
def position? (t : Table α) (name : String) : Option Nat := t.names.idxOf? name

/-- The position of the column called `name`, or the fault that there is none. -/
def position (t : Table α) (name : String) : Outcome α Nat :=
  match t.position? name with
  | some i => .ok i
  | none => .error (.missingColumn name)

/-- The positions of several columns; the first absent one is reported. -/
def positions (t : Table α) (names : List String) : Outcome α (List Nat) := names.mapM t.position

/-- The cells of the column at position `i`, from the first row to the last. -/
def cellsAt (t : Table α) (i : Nat) : List (Cell α) := t.rows.map (cellAt · i)

/-- The column called `name`. -/
def column (t : Table α) (name : String) : Outcome α (Column α) :=
  (t.position name).map fun i => ⟨name, t.cellsAt i⟩

/-- All columns, in order. -/
def columns (t : Table α) : List (Column α) :=
  t.names.zipIdx.map fun (name, i) => ⟨name, t.cellsAt i⟩

/-- A stamped row at a position, with its cells named. -/
def view (t : Table α) (position : Nat) (row : Stamped α (List (Cell α))) : Row α :=
  ⟨position, row.time, t.names.zip row.value⟩

/-- All rows with their positions. -/
def allRows (t : Table α) : List (Row α) := t.rows.zipIdx.map fun (row, i) => t.view i row

/-- The row at a position, which the table has to have. -/
def row (t : Table α) (position : Nat) : Outcome α (Row α) :=
  match t.rows[position]? with
  | some r => .ok (t.view position r)
  | none => .error .outOfBounds

/-! ## Changing rows and columns -/

/-- The columns of a table without any rows. -/
def emptyLike (t : Table α) : Table α := { t with rows := [] }

/-- Keeps the rows that a test accepts. -/
def filterRows (t : Table α) (accept : Row α → Bool) : Table α :=
  { t with rows := (t.rows.zipIdx.filter fun (row, i) => accept (t.view i row)).map (·.1) }

/-- Removes the named columns, all of which the table has to have. -/
def dropColumns (t : Table α) (names : List String) : Outcome α (Table α) := do
  let _ ← t.positions names
  let kept := t.names.map (!names.contains ·)
  return {
    names := pick kept t.names
    rows := t.rows.map fun row => { row with value := pick kept row.value } }

/-- The rows from `start` up to and without `stop`, a range that the table has to have. -/
def slice (t : Table α) (start stop : Nat) : Outcome α (Table α) :=
  if start ≤ stop ∧ stop ≤ t.length then .ok { t with rows := Stamped.extract t.rows start stop }
  else .error .outOfBounds

variable [Scalar α]

/-- The row in effect at time `t`: the last one at or before it. -/
def rowAt (table : Table α) (t : α) : Option (Row α) := do
  let i ← locate table.times t .pad
  let r ← table.rows[i]?
  return table.view i r

/-- A table with rows and no columns. -/
def ofIndex (index : List α) : Outcome α (Table α) := do
  checkIndex index
  return ⟨[], index.map (⟨·, []⟩)⟩

/-- Adds a column at the end. It has to have a cell for every row and a name of its own. -/
def withColumn (t : Table α) (c : Column α) : Outcome α (Table α) :=
  if c.cells.length ≠ t.length then
    .error (.columnLength c.name c.cells.length t.length)
  else if t.names.contains c.name then .error (.duplicateColumn c.name)
  else .ok {
    names := t.names ++ [c.name]
    rows := t.rows.zipWith (fun row cell => { row with value := row.value ++ [cell] }) c.cells }

/-- A table with the given times and columns. -/
def ofColumns (index : List α) (columns : List (Column α)) : Outcome α (Table α) := do
  columns.foldlM withColumn (← ofIndex index)

/-- The same rows at other times. -/
def withTimes (t : Table α) (index : List α) : Outcome α (Table α) := do
  unless index.length = t.length do
    throw (.replacementLength .table index.length t.length)
  checkIndex index
  return { t with rows := Stamped.retime t.rows index }

/-- Whether two tables are equal: equal times, the same names, and cells that are the same. -/
def same (a b : Table α) : Bool :=
  Scalar.eqAll a.times b.times && a.names == b.names &&
    (a.rows.zip b.rows).all fun (x, y) => Cell.sameAll x.value y.value

/-! ## Validity -/

/-- What every table satisfies that this library builds. -/
structure Valid (t : Table α) : Prop where
  ordered : Ordered t.times
  width : ∀ row ∈ t.rows, row.value.length = t.names.length
  distinct : t.names.Nodup

end Table

end StepSignal
