import StepSignal.Selection

/-!
# Joining tables on time

The outer join of two tables has a row for every time of either, with the cells of both sides where
both have a row and empty cells where one has none. A column name that both sides use is told apart
by `_x` for the left and `_y` for the right. Several tables are joined from left to right.
-/

namespace StepSignal

variable {α : Type} [Scalar α]

/-- Joins two lists of rows in order of time, filling up rows of one side only to `leftWidth` and
`rightWidth` cells. A row of both sides has the time as the left one writes it. -/
def joinRows (leftWidth rightWidth : Nat) :
    List (Stamped α (List (Cell α))) → List (Stamped α (List (Cell α))) →
      List (Stamped α (List (Cell α)))
  | [], rs => rs.map fun r => { r with value := List.replicate leftWidth .null ++ r.value }
  | ls, [] => ls.map fun l => { l with value := l.value ++ List.replicate rightWidth .null }
  | l :: ls, r :: rs =>
    if Scalar.eq l.time r.time then
      ⟨l.time, l.value ++ r.value⟩ :: joinRows leftWidth rightWidth ls rs
    else if Scalar.lt l.time r.time then
      ⟨l.time, l.value ++ List.replicate rightWidth .null⟩ ::
        joinRows leftWidth rightWidth ls (r :: rs)
    else
      ⟨r.time, List.replicate leftWidth .null ++ r.value⟩ ::
        joinRows leftWidth rightWidth (l :: ls) rs
termination_by ls rs => ls.length + rs.length

/-- The column names of a join: those of both sides, with an ending where they collide. -/
def joinNames (left right : List String) : List String :=
  left.map (fun n => if right.contains n then n ++ "_x" else n) ++
    right.map (fun n => if left.contains n then n ++ "_y" else n)

/-- The first name that an earlier one equals. -/
def firstRepeated (seen : List String) : List String → Option String
  | [] => none
  | n :: rest => if seen.contains n then some n else firstRepeated (n :: seen) rest

/-- The outer join of two tables, unless a name with an ending collides again. -/
def Table.outerJoin (left right : Table α) : Outcome α (Table α) := do
  let rows := joinRows left.names.length right.names.length left.rows right.rows
  let names := joinNames left.names right.names
  checkIndex (Stamped.times rows)
  match firstRepeated [] names with
  | some name => throw (.duplicateColumn name)
  | none => return ⟨names, rows⟩

/-- What is done to every table before a join: rows are selected by conditions, whose columns then
hold one value and are removed together with the columns to drop. -/
structure Preparation (α : Type) where
  drop : List String
  conditions : List (String × Cell α)
deriving DecidableEq, Repr

/-- A table prepared for a join. -/
def Table.prepare (t : Table α) (p : Preparation α) : Outcome α (Table α) := do
  (← t.whereCells p.conditions).dropColumns (p.drop ++ p.conditions.map (·.1))

/-- The outer join of all tables of a list, each prepared first. -/
def mergeAll (tables : List (Table α)) (p : Preparation α) : Outcome α (Table α) := do
  match ← tables.mapM (·.prepare p) with
  | [] => throw .nothingToMerge
  | first :: rest => rest.foldlM Table.outerJoin first

end StepSignal
