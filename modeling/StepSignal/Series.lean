import StepSignal.Table

/-!
# Series

A series is a named list of stamped samples. A sample that was not taken is the missing value of
its scalar type.
-/

namespace StepSignal

/-- A named list of stamped samples. -/
structure Series (α : Type) where
  name : String
  samples : List (Stamped α α)
deriving DecidableEq, Repr

namespace Series

variable {α : Type}

/-- The times of the samples. -/
def times (s : Series α) : List α := Stamped.times s.samples

/-- The samples without their times. -/
def values (s : Series α) : List α := s.samples.map (·.value)

/-- The times and the values make up the samples. -/
theorem zipWith_times_values (s : Series α) :
    s.times.zipWith Stamped.mk s.values = s.samples := by
  rw [times, Stamped.times, values, List.zipWith_map, List.zipWith_self]
  exact List.map_id _

def length (s : Series α) : Nat := s.samples.length

@[simp] theorem length_times (s : Series α) : s.times.length = s.length :=
  Stamped.length_times s.samples

@[simp] theorem length_values (s : Series α) : s.values.length = s.length :=
  List.length_map _

def isEmpty (s : Series α) : Bool := s.samples.isEmpty

/-- The series with its samples replaced, as far as both lists go. -/
def withValues (s : Series α) (values : List α) : Series α :=
  { s with samples := s.samples.zipWith (fun row v => { row with value := v }) values }

theorem times_withValues {s : Series α} {values : List α} (h : values.length = s.samples.length) :
    (s.withValues values).times = s.times :=
  Stamped.times_zipWith (f := fun row v => { row with value := v }) (fun _ _ => rfl) h

/-- Replacing all values of a series gives it the new ones. -/
theorem values_withValues {s : Series α} {values : List α} (h : values.length = s.samples.length) :
    (s.withValues values).values = values := by
  rw [Series.values, Series.withValues, List.map_zipWith, ← List.map_uncurry_zip_eq_zipWith]
  exact List.map_snd_zip (Nat.le_of_eq h)

theorem withValues_values (s : Series α) : s.withValues s.values = s := by
  have hsamples : s.samples.zipWith (fun row v => { row with value := v }) s.values = s.samples := by
    rw [Series.values, List.zipWith_map_right, List.zipWith_self]
    exact List.map_id _
  rw [Series.withValues, hsamples]

/-- The samples from `start` up to and without `stop`, a range that the series has to have. -/
def slice (s : Series α) (start stop : Nat) : Outcome α (Series α) :=
  if start ≤ stop ∧ stop ≤ s.length then
    .ok { s with samples := Stamped.extract s.samples start stop }
  else .error .outOfBounds

variable [Scalar α]

/-- Whether some sample is missing. -/
def hasMissing (s : Series α) : Bool := s.values.any Scalar.isMissing

/-- The value in effect at time `t`: that of the last sample at or before it. -/
@[specialize] def valueAt (s : Series α) (t : α) : Option α := do
  let i ← locate s.times t .pad
  let sample ← s.samples[i]?
  return sample.value

/-- The values in effect at some times. -/
@[specialize] def valuesAt (s : Series α) (ts : List α) : List (Option α) :=
  let times := s.times
  ts.map fun t => do
    let i ← locate times t .pad
    let sample ← s.samples[i]?
    return sample.value

/-- Looking up many times at once is looking up each of them. -/
theorem valuesAt_eq_map (s : Series α) (ts : List α) : s.valuesAt ts = ts.map s.valueAt := rfl

/-- A series with the given times and values. -/
def ofValues (name : String) (index values : List α) : Outcome α (Series α) := do
  unless index.length = values.length do
    throw (.seriesLength name values.length index.length)
  checkIndex index
  return ⟨name, index.zipWith Stamped.mk values⟩

/-- The number that a cell stands for in a series; an empty cell is a missing sample. -/
def sampleOf (column : String) (cell : Cell α) : Outcome α α :=
  if cell.isNull then .ok Scalar.missing
  else match cell.number? with
    | some x => .ok x
    | none => .error (.notNumeric column cell)

/-- The series that a numeric column of a table holds. -/
def ofColumn (table : Table α) (name : String) : Outcome α (Series α) := do
  let column ← table.column name
  let values ← column.cells.mapM (sampleOf name)
  return ⟨name, table.times.zipWith Stamped.mk values⟩

/-- The same samples at other times. -/
def withTimes (s : Series α) (index : List α) : Outcome α (Series α) := do
  unless index.length = s.length do
    throw (.replacementLength .series index.length s.length)
  checkIndex index
  return { s with samples := Stamped.retime s.samples index }

/-- Whether two series are equal as numbers are: a missing sample equals nothing. -/
def same (a b : Series α) : Bool :=
  a.name == b.name && Scalar.eqAll a.times b.times && Scalar.eqAll a.values b.values

/-- What every series satisfies that this library builds from checked parts. -/
def Valid (s : Series α) : Prop := Ordered s.times

end Series

end StepSignal
