import StepSignal.Series

/-!
# Leaving out repeated rows

Two choices decide which rows go. Repeats are looked for either among neighbours, where each run of
equal rows becomes one row, or anywhere, where each value is kept once. And of equal rows either the
first or the last is kept.

    values                        1 2 2 3 4 2
    first of neighbours           1 2   3 4 2
    first anywhere                1 2   3 4

The rules are written for lists and any relation that says which values repeat each other.
-/

namespace StepSignal

/-- Which of several equal rows is kept. -/
inductive Keep where
  | first
  | last
deriving DecidableEq, Repr

/-- Where the repeats of a row are looked for. -/
inductive RepeatScope where
  | neighbours
  | anywhere
deriving DecidableEq, Repr

namespace Keep

/-- The name of a choice, in requests and in stored settings. -/
def name : Keep → String
  | first => "first"
  | last => "last"

/-- Both choices. -/
def all : List Keep := [first, last]

/-- The choice of a name. -/
def ofName {α : Type} (text : String) : Outcome α Keep :=
  match all.find? (·.name == text) with
  | some keep => .ok keep
  | none => .error (.unknownName .keep text)

end Keep

section Lists

variable {β : Type} (repeats : β → β → Bool)

/-- The values that do not repeat the value right before them, where `before` comes before the
first. -/
def changesAfter (before : β) : List β → List β
  | [] => []
  | x :: xs => if repeats x before then changesAfter x xs else x :: changesAfter x xs

/-- The first value, and all others that do not repeat the value right before them. -/
def runStarts : List β → List β
  | [] => []
  | x :: xs => x :: changesAfter repeats x xs

/-- The last value, and all others that do not repeat the value right after them. -/
def runEnds : List β → List β
  | x :: y :: rest => if repeats x y then runEnds (y :: rest) else x :: runEnds (y :: rest)
  | xs => xs

/-- The values that no later value repeats. -/
def lastOccurrences : List β → List β
  | [] => []
  | x :: xs => if xs.any (repeats x) then lastOccurrences xs else x :: lastOccurrences xs

/-- The values that repeat no earlier value. -/
def firstOccurrences (xs : List β) : List β := (lastOccurrences repeats xs.reverse).reverse

/-- The values that are left when repeats are left out. -/
def withoutRepeats (keep : Keep) (scope : RepeatScope) (xs : List β) : List β :=
  match scope, keep with
  | .neighbours, .first => runStarts repeats xs
  | .neighbours, .last => runEnds repeats xs
  | .anywhere, .first => firstOccurrences repeats xs
  | .anywhere, .last => lastOccurrences repeats xs

end Lists

variable {α : Type} [Scalar α]

/-- A series without its repeated values. -/
def Series.withoutRepeats (s : Series α) (keep : Keep) (scope : RepeatScope) : Series α :=
  let repeats := fun (a b : Stamped α α) => Scalar.same a.value b.value
  { s with samples := StepSignal.withoutRepeats repeats keep scope s.samples }

/-- Whether two rows are the same in all the columns at the given positions, or in any of them. -/
def rowRepeats (allColumns : Bool) (positions : List Nat)
    (a b : Stamped α (List (Cell α))) : Bool :=
  let sameAt := fun i => Cell.same (cellAt a i) (cellAt b i)
  if allColumns then positions.all sameAt else positions.any sameAt

/-- A table without its repeated rows. Rows are compared in the given columns, or in all of them
when none are given; with `allColumns` a repeat has to be one in every compared column. -/
def Table.withoutRepeats (t : Table α) (keep : Keep) (scope : RepeatScope)
    (columns : Option (List String)) (allColumns : Bool) : Outcome α (Table α) := do
  if scope = .anywhere && !allColumns then throw .anyColumnAcrossTable
  let positions ← match columns with
    | some names => t.positions names
    | none => pure (List.range t.names.length)
  let repeats := rowRepeats allColumns positions
  return { t with rows := StepSignal.withoutRepeats repeats keep scope t.rows }

end StepSignal
