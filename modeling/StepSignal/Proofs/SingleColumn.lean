import StepSignal.Proofs.Runs

/-!
# A series as a table

A series is a table with a single column, which has its name. Samples are the same as numbers when
the cells that hold them are the same as cells, so repeats are left out in one as in the other.
-/

namespace StepSignal

open Scalar

variable {α : Type}

/-- A sample as the only cell of a row. -/
def Stamped.toRow (sample : Stamped α α) : CellRow α := ⟨sample.time, [.num sample.value]⟩

theorem rowRepeats_toRow [Scalar α] [LawfulScalar α] (a b : Stamped α α) :
    rowRepeats true [0] a.toRow b.toRow = Scalar.same a.value b.value := by
  rw [Bool.eq_iff_iff, same_iff]
  simp [rowRepeats, cellAt, Stamped.toRow, Cell.same_iff, Cell.exactly]

namespace Series

/-- A series as the only column of a table. -/
def toTable (s : Series α) : Table α := ⟨[s.name], s.samples.map Stamped.toRow⟩

theorem times_toTable (s : Series α) : s.toTable.times = s.times := by
  simp [toTable, Table.times, times, Stamped.times, Stamped.toRow, Function.comp_def]

theorem cellsAt_toTable (s : Series α) : s.toTable.cellsAt 0 = s.values.map .num := by
  simp [toTable, Table.cellsAt, cellAt, values, Stamped.toRow, Function.comp_def]

variable [Scalar α]

theorem Valid.toTable {s : Series α} (hs : s.Valid) : s.toTable.Valid where
  ordered := s.times_toTable.symm ▸ hs
  width row hrow := by
    obtain ⟨sample, -, rfl⟩ := List.mem_map.mp hrow
    rfl
  distinct := List.nodup_singleton s.name

/-- The table is built from the times and the values. -/
theorem Valid.ofColumns_eq_toTable {s : Series α} (hs : s.Valid) :
    Table.ofColumns s.times [⟨s.name, s.values.map .num⟩] = .ok s.toTable := by
  have hbuilt := hs.toTable.ofColumns_columns
  have hcolumns : s.toTable.columns = [⟨s.name, s.toTable.cellsAt 0⟩] := rfl
  rwa [s.times_toTable, hcolumns, cellsAt_toTable] at hbuilt

/-- The column of the table is the series. -/
theorem ofColumn_toTable (s : Series α) : ofColumn s.toTable s.name = .ok s := by
  have hposition : s.toTable.position s.name = .ok 0 :=
    Table.position_eq_ok.mpr (by simp [Table.position?, toTable])
  have hsamples : (s.values.map Cell.num).mapM (sampleOf s.name) = .ok s.values := by
    refine mapM_eq_ok.mpr (List.forall₂_map_left_iff.mpr (List.forall₂_same.mpr ?_))
    exact fun _ _ => rfl
  unfold ofColumn Table.column
  rw [hposition, Except.map, ok_bind, cellsAt_toTable, hsamples, ok_bind, times_toTable,
    zipWith_times_values]
  rfl

/-- Leaving out repeats in the table is leaving them out in the series. -/
theorem withoutRepeats_toTable [LawfulScalar α] (s : Series α) (keep : Keep)
    (scope : RepeatScope) :
    s.toTable.withoutRepeats keep scope none true
      = .ok (s.withoutRepeats keep scope).toTable := by
  have hcolumns : s.toTable.compared none = .ok [0] := rfl
  rw [Table.withoutRepeats_eq _ keep none (.inr rfl), hcolumns, ok_map, toTable, toTable,
    withoutRepeats_map]
  simp only [rowRepeats_toRow]
  rfl

/-- **Series and tables agree.** A table can be built from the times of a series and its samples as
the cells of a single column. Its repeats can be left out, and then the column is the series without
its repeats. -/
theorem withoutRepeats_as_table [LawfulScalar α] {s : Series α} (hs : s.Valid) (keep : Keep)
    (scope : RepeatScope) :
    ∃ t out, Table.ofColumns s.times [⟨s.name, s.values.map .num⟩] = .ok t ∧
      t.withoutRepeats keep scope none true = .ok out ∧
      ofColumn out s.name = .ok (s.withoutRepeats keep scope) :=
  ⟨s.toTable, (s.withoutRepeats keep scope).toTable, hs.ofColumns_eq_toTable,
    s.withoutRepeats_toTable keep scope, (s.withoutRepeats keep scope).ofColumn_toTable⟩

/-- The two zeros, missing numbers and infinities, the last of neighbours each. -/
theorem withoutRepeats_as_table_of_zeros :
    let s : Series Float := ⟨"v", [⟨0, 0⟩, ⟨1, -0.0⟩, ⟨2, 0 / 0⟩, ⟨3, 0 / 0⟩, ⟨4, 1 / 0⟩,
      ⟨5, -1 / 0⟩]⟩
    let kept : Series Float := ⟨"v", [⟨1, -0.0⟩, ⟨3, 0 / 0⟩, ⟨4, 1 / 0⟩, ⟨5, -1 / 0⟩]⟩
    s.Valid ∧ s.withoutRepeats .last .neighbours = kept ∧
      ∃ t out, Table.ofColumns [0, 1, 2, 3, 4, 5] [⟨"v", [.num 0, .num (-0.0), .num (0 / 0),
          .num (0 / 0), .num (1 / 0), .num (-1 / 0)]⟩] = .ok t ∧
        t.withoutRepeats .last .neighbours none true = .ok out ∧
        ofColumn out "v" = .ok kept := by
  intro s kept
  have hs : s.Valid := checkIndex_eq_ok.mp (by decide)
  have hkept : s.withoutRepeats .last .neighbours = kept := by decide +kernel
  exact ⟨hs, hkept, hkept ▸ withoutRepeats_as_table hs .last .neighbours⟩

end Series

end StepSignal
