import StepSignal.Document.Data
import StepSignal.Proofs.Binary64.Neighbours
import StepSignal.Proofs.Document
import StepSignal.Proofs.Table

/-!
# Tables and series come back from their documents

A format keeps a number when a whole number comes back in some form and a finite one as it is. From
a document whose numbers were kept, the table or the series is read that it was made from; an
infinite cell or sample has to be kept by itself.
-/

namespace StepSignal

open Document (Renumbering)

variable {r : Renumbering} (hr : r.Keeps) (dialect : Dialect)

/-! ## Cells and columns -/

include hr in
theorem Document.int64?_ofInt (n : Int64) : ((ofInt n.toInt).renumber r).int64? = some n := by
  have hlow := n.minValue_le_toInt
  have hhigh := n.toInt_le
  have hint : ((ofInt n.toInt).renumber r).int? = some n.toInt := by
    rw [ofInt]
    split
    · rename_i hsign
      have htop : Int64.maxValue.toInt < (UInt64.size : Int) := by decide
      rw [renumber_natural, hr.natural _ (by omega)]
      exact congrArg some (Int.toNat_of_nonneg hsign)
    · rw [renumber, hr.integer _ hlow (by omega)]
  simp only [int64?, hint, Option.bind_eq_bind, Option.bind_some]
  rw [if_pos ⟨hlow, hhigh⟩, Int64.ofInt_toInt]

include hr in
/-- A cell is read from its document. -/
theorem Cell.ofDocument?_toDocument (c : Cell Float)
    (hfloat : ∀ x, c = .num x → r.float x = .float x) :
    Cell.ofDocument? dialect (c.toDocument.renumber r) = some c := by
  cases c with
  | null => rw [Cell.toDocument, Document.renumber_text]; rfl
  | bool b => rw [Cell.toDocument, Document.renumber_choice, Document.renumber_bool]; rfl
  | int n =>
    rw [Cell.toDocument, Document.renumber_choice]
    show (Document.int64? _).map Cell.int = _
    rw [Document.int64?_ofInt hr, Option.map_some]
  | num x =>
    rw [Cell.toDocument, Document.renumber_choice, Document.renumber_float, hfloat x rfl]
    rfl
  | text s => rw [Cell.toDocument, Document.renumber_choice, Document.renumber_text]; rfl

include hr in
/-- A column is read from its document. -/
theorem Column.ofDocument?_toDocument (c : Column Float)
    (hfloat : ∀ x, .num x ∈ c.cells → r.float x = .float x) :
    Column.ofDocument? dialect (c.toDocument.renumber r) = some c := by
  have hcells : c.cells.mapM (Cell.ofDocument? dialect ∘ Document.renumber r ∘ Cell.toDocument) =
      some c.cells := by
    refine Document.mapM_eq_self fun cell hcell => ?_
    exact Cell.ofDocument?_toDocument hr dialect cell fun x hx => hfloat x (hx ▸ hcell)
  simp only [Column.toDocument, Document.renumber_record, List.map_cons, List.map_nil,
    Document.renumber_text, Document.renumber_list]
  rw [Column.ofDocument?, Document.fields?_record dialect (by decide) (by simp)]
  simp [Document.Fields.required, Document.Fields.get?, List.lookup, Document.text?,
    Document.list?, hcells]

/-! ## Tables -/

namespace Table

variable {t : Table Float}

/-- A cell of a column that is not empty is a cell of a row. -/
theorem mem_row_of_cellsAt {i : Nat} {cell : Cell Float} (h : cell ∈ t.cellsAt i)
    (hcell : cell ≠ .null) : ∃ row ∈ t.rows, cell ∈ row.value := by
  obtain ⟨row, hrow, rfl⟩ := List.mem_map.mp h
  refine ⟨row, hrow, ?_⟩
  rw [cellAt, List.getD_eq_getElem?_getD] at hcell ⊢
  rcases hget : row.value[i]? with - | c
  · exact absurd (by rw [hget]; rfl) hcell
  · exact List.mem_of_getElem? hget

end Table

/-- The numbers of a document of times. -/
theorem Document.floats?_indexDocument {index : List Float}
    (h : ∀ x ∈ index, r.float x = .float x) :
    ((indexDocument index).renumber r).floats? = some index := by
  have hitems : index.mapM (float? ∘ renumber r ∘ Document.float) = some index := by
    refine mapM_eq_self fun x hx => ?_
    show ((Document.float x).renumber r).float? = some x
    rw [renumber_float, h x hx]
    rfl
  simpa [indexDocument, floats?, list?] using hitems

include hr in
/-- **A table comes back from its document** when its numbers are kept. -/
theorem Table.ofDocument?_toDocument {t : Table Float} (ht : t.Valid)
    (hfloat : ∀ row ∈ t.rows, ∀ x, .num x ∈ row.value → r.float x = .float x) :
    Table.ofDocument? dialect (t.toDocument.renumber r) = some t := by
  have hindex : ((indexDocument t.times).renumber r).floats? = some t.times :=
    Document.floats?_indexDocument fun x hx => hr.float x (ht.ordered.1 x hx)
  have hcolumns : t.columns.mapM
      (Column.ofDocument? dialect ∘ Document.renumber r ∘ Column.toDocument) = some t.columns := by
    refine Document.mapM_eq_self fun c hc => ?_
    refine Column.ofDocument?_toDocument hr dialect c fun x hx => ?_
    obtain ⟨⟨name, i⟩, -, rfl⟩ := List.mem_map.mp hc
    obtain ⟨row, hrow, hmem⟩ := Table.mem_row_of_cellsAt hx (by simp)
    exact hfloat row hrow x hmem
  simp only [Table.toDocument, Document.renumber_record, List.map_cons, List.map_nil,
    Document.renumber_list]
  rw [Table.ofDocument?, Document.fields?_record dialect (by decide) (by simp)]
  simp [Document.Fields.required, Document.Fields.get?, List.lookup, Document.list?, hindex,
    hcolumns, ht.ofColumns_columns]
  rfl

/-! ## Series -/

namespace Series

theorem Valid.ofValues_values {s : Series Float} (hs : s.Valid) :
    ofValues s.name s.times s.values = .ok s := by
  rw [ofValues, if_pos (by simp [times, values]), checkIndex_eq_ok.mpr hs,
    zipWith_times_values]
  rfl

/-- A sample is read from its document; a missing one is the missing value. -/
theorem sampleOf?_sampleDocument {x : Float} (h : x.isNaN = false → r.float x = .float x) :
    sampleOf? ((sampleDocument x).renumber r) = some x := by
  rw [sampleDocument]
  rcases hx : x.isNaN with - | -
  · rw [if_neg (by decide), Document.renumber_float, h hx]
    rfl
  · rw [if_pos rfl, Document.renumber_null]
    exact congrArg some (Binary64.eq_of_isNaN (by decide) hx)

include hr in
/-- **A series comes back from its document** when its numbers are kept. -/
theorem ofDocument?_toDocument {s : Series Float} (hs : s.Valid)
    (hfloat : ∀ x ∈ s.values, x.isNaN = false → r.float x = .float x) :
    Series.ofDocument? dialect (s.toDocument.renumber r) = some s := by
  have hindex : ((indexDocument s.times).renumber r).floats? = some s.times :=
    Document.floats?_indexDocument fun x hx => hr.float x (hs.1 x hx)
  have hvalues : s.values.mapM (sampleOf? ∘ Document.renumber r ∘ sampleDocument) =
      some s.values :=
    Document.mapM_eq_self fun x hx => sampleOf?_sampleDocument (hfloat x hx)
  simp only [Series.toDocument, Document.renumber_record, List.map_cons, List.map_nil,
    Document.renumber_text, Document.renumber_list]
  rw [Series.ofDocument?, Document.fields?_record dialect (by decide) (by simp)]
  simp [Document.Fields.required, Document.Fields.get?, List.lookup, Document.text?,
    Document.list?, hindex, hvalues, hs.ofValues_values]
  rfl

end Series

end StepSignal
