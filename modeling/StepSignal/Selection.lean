import StepSignal.Table

/-!
# Selecting rows

Rows are selected by what their cells hold: by a list of conditions that all have to agree, or by
tasks, of which one has to fit. Cells agree as numbers do, so that a column of integers can be
selected by a number and the other way round.
-/

namespace StepSignal

variable {α : Type} [Scalar α]

/-- The rows whose cells agree with every condition. -/
def Table.whereCells (t : Table α) (conditions : List (String × Cell α)) : Outcome α (Table α) := do
  let positions ← t.positions (conditions.map (·.1))
  let wanted := positions.zip (conditions.map (·.2))
  let rows := t.rows.filter fun row =>
    wanted.all fun (i, cell) => (cellAt row i).agrees cell
  return { t with rows }

/-- The number of characters that a recorded command name has room for. -/
def defaultNameLength : Nat := 16

/-- A task, by its number, its command name or both; a part that is not set fits every task. -/
structure Task where
  pid : Option Int64
  comm : Option String
deriving DecidableEq, Repr

/-- The text of a task. -/
def Task.display : Task → String
  | ⟨some pid, some comm⟩ => toString pid.toInt ++ ":" ++ comm
  | ⟨some pid, none⟩ => toString pid.toInt
  | ⟨none, some comm⟩ => comm
  | ⟨none, none⟩ => "*"

/-- The cell that a task asks for in the column of task numbers. -/
def Task.pidCell (task : Task) : Option (Cell α) := task.pid.map .int

/-- The cell that a task asks for in the column of command names, which holds cut names. -/
def Task.commCell (nameLength : Nat) (task : Task) : Option (Cell α) :=
  task.comm.map fun comm => .text (String.ofList (comm.toList.take nameLength))

/-- Whether a row fits what is asked for in a column. An unset column or request fits. -/
def fieldFits (row : Stamped α (List (Cell α))) : Option Nat → Option (Cell α) → Bool
  | some i, some cell => (cellAt row i).agrees cell
  | _, _ => true

/-- Whether a row belongs to a task. -/
def Task.fits (nameLength : Nat) (pidAt commAt : Option Nat) (row : Stamped α (List (Cell α)))
    (task : Task) : Bool :=
  fieldFits row pidAt task.pidCell && fieldFits row commAt (task.commCell nameLength)

/-- The position of a column that is looked at only when it is set and needed. -/
def Table.positionIfNeeded (t : Table α) (column : Option String) (needed : Bool) :
    Outcome α (Option Nat) :=
  match column with
  | some name => if needed then (t.position name).map some else .ok none
  | none => .ok none

/-- The rows that belong to one of the tasks or, with `invert`, to none. -/
def Table.selectTasks (t : Table α) (tasks : List Task) (pidColumn commColumn : Option String)
    (invert : Bool) (nameLength : Nat) : Outcome α (Table α) := do
  let pidAt ← t.positionIfNeeded pidColumn (tasks.any (·.pid.isSome))
  let commAt ← t.positionIfNeeded commColumn (tasks.any (·.comm.isSome))
  let rows := t.rows.filter fun row =>
    tasks.any (Task.fits nameLength pidAt commAt row) != invert
  return { t with rows }

end StepSignal
