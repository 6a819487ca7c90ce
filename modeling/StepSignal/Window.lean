import StepSignal.Series

/-!
# Windows

A window is a pair of optional bounds; an unset bound reaches to the data's own edge. Both bounds
are inclusive. A bound that misses the times of the data is resolved by an `EdgeRule`, separately
for the two sides, and `windowRange` turns a window into a range of rows. With clipping, the window
is first moved into the extent of the data.

Windowing looks at times only, so it is written once for stamped rows and then used for tables and
series alike.
-/

namespace StepSignal

/-! ## Edge rules -/

/-- How the bounds of a window that miss the data are resolved. -/
inductive EdgeRule where
  /-- To the sample before a missed start and the sample after a missed end: the smallest range
  that holds every row of the window. -/
  | inclusive
  /-- To the rows strictly inside the window. -/
  | exclusive
  /-- To the closest sample. -/
  | nearest
  /-- To the sample before. -/
  | pre
  /-- To the sample after. -/
  | post
deriving DecidableEq, Repr

namespace EdgeRule

/-- How a start that misses the data is resolved. -/
def startSeek : EdgeRule → Seek
  | inclusive => .pad
  | exclusive => .backfill
  | nearest => .nearest
  | pre => .pad
  | post => .backfill

/-- How an end that misses the data is resolved. -/
def stopSeek : EdgeRule → Seek
  | inclusive => .backfill
  | exclusive => .pad
  | nearest => .nearest
  | pre => .pad
  | post => .backfill

/-- The name of a rule, in requests and in stored settings. -/
def name : EdgeRule → String
  | inclusive => "inclusive"
  | exclusive => "exclusive"
  | nearest => "nearest"
  | pre => "pre"
  | post => "post"

/-- All rules. -/
def all : List EdgeRule := [inclusive, exclusive, nearest, pre, post]

/-- The rule of a name. -/
def ofName {α : Type} (text : String) : Outcome α EdgeRule :=
  match all.find? (·.name == text) with
  | some rule => .ok rule
  | none => .error (.unknownName .edgeRule text)

end EdgeRule

/-! ## Windows -/

/-- A pair of optional bounds, both inclusive. -/
structure Window (α : Type) where
  start : Option α
  stop : Option α
deriving DecidableEq, Repr

variable {α : Type} [Scalar α]

namespace Window

/-- Refuses a bound that is missing as a number. -/
def check (w : Window α) : Outcome α Unit :=
  if w.start.any Scalar.isMissing || w.stop.any Scalar.isMissing then .error .missingWindowBound
  else .ok ()

/-- The window moved into the extent from `first` to `last`. A window that lies wholly before the
data becomes its first time, one wholly after it the last time. -/
def clip (w : Window α) (first last : α) : Window α :=
  let start := w.start.getD first
  let stop := w.stop.getD last
  if Scalar.le start first && Scalar.le stop first then ⟨some first, some first⟩
  else if Scalar.le last start && Scalar.le last stop then ⟨some last, some last⟩
  else ⟨some (Scalar.max start first), some (Scalar.min stop last)⟩

end Window

/-- The row at which a window opens, unless no row can stand for the bound. -/
def openingRow (index : List α) (first : α) (rule : EdgeRule) : Option α → Option Nat
  | none => some 0
  | some bound =>
    match locate index bound rule.startSeek with
    | some row => some row
    | none => if Scalar.lt bound first then some 0 else none

/-- The row at which a window closes, unless no row can stand for the bound. -/
def closingRow (index : List α) (last : α) (rule : EdgeRule) : Option α → Option Nat
  | none => some (index.length - 1)
  | some bound =>
    match locate index bound rule.stopSeek with
    | some row => some row
    | none => if Scalar.lt last bound then some (index.length - 1) else none

/-- The rows that a window selects, from the first number up to and without the second; two zeros
when it selects none. -/
def windowRange (index : List α) (w : Window α) (rule : EdgeRule) (clipped : Bool) :
    Outcome α (Nat × Nat) := do
  w.check
  match index.head?, index.getLast? with
  | some first, some last =>
    let w := if clipped then w.clip first last else w
    match openingRow index first rule w.start, closingRow index last rule w.stop with
    | some start, some stop => return if start ≤ stop then (start, stop + 1) else (0, 0)
    | _, _ => return (0, 0)
  | _, _ => return (0, 0)

/-- The stamped rows that a window selects. -/
def windowRows {β : Type} (rows : List (Stamped α β)) (w : Window α) (rule : EdgeRule)
    (clipped : Bool) : Outcome α (List (Stamped α β)) := do
  let (start, stop) ← windowRange (Stamped.times rows) w rule clipped
  return Stamped.extract rows start stop

/-- The part of a table that a window selects. -/
def Table.window (t : Table α) (w : Window α) (rule : EdgeRule) (clipped : Bool) :
    Outcome α (Table α) := do
  return { t with rows := ← windowRows t.rows w rule clipped }

/-- The part of a series that a window selects. -/
def Series.window (s : Series α) (w : Window α) (rule : EdgeRule) (clipped : Bool) :
    Outcome α (Series α) := do
  return { s with samples := ← windowRows s.samples w rule clipped }

end StepSignal
