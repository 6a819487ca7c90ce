import StepSignal.Proofs.CellOrder
import StepSignal.Proofs.Columns
import StepSignal.Proofs.Signals

/-!
# Splitting partitions the rows

The keys that occur in a table are found at their first occurrences and sorted. Two of them are never
the same, and every row has one of them, so the rows fall into the signals without overlap. Put in
order of time again, the rows of all signals are those of the table.

Moving the start of the signals to that of the table changes the time of their first rows only: the
start is not after any row, so the window that refitting takes is the whole signal.
-/

namespace StepSignal

open Scalar

variable {α : Type} [Scalar α]

/-! ## Keys -/

section Keys

variable [LawfulScalar α] {positions : List Nat} {rows : List (CellRow α)}

/-- The keys of the signals increase. -/
theorem pairwise_sortedKeys (positions : List Nat) (rows : List (CellRow α)) :
    (sortedKeys positions rows).Pairwise fun a b => Cell.orderAll a b = .lt := by
  have hsorted : (sortedKeys positions rows).Pairwise fun a b =>
      (Cell.orderAll a b).isLE = true :=
    List.pairwise_mergeSort (fun _ _ _ => Std.TransCmp.isLE_trans) Cell.orderAll_isLE_total _
  have hdiffer := nodup_sortedKeys positions rows
  rw [List.Nodup, List.pairwise_map] at hdiffer
  refine (hsorted.and hdiffer).imp fun {a b} ⟨hle, hne⟩ => ?_
  rw [ne_eq, ← Cell.sameAll_iff, Cell.sameAll] at hne
  revert hle hne
  cases Cell.orderAll a b <;> simp

/-- Every row has the key of some signal. -/
theorem exists_sortedKey (positions : List Nat) {row : CellRow α} (hrow : row ∈ rows) :
    ∃ key ∈ sortedKeys positions rows, Cell.sameAll (keyOf positions row) key = true := by
  obtain ⟨key, hkey, hsame⟩ := exists_firstOccurrence
    (fun key => (Cell.sameAll_iff key key).mpr rfl)
    (fun a b c hab hbc => (Cell.sameAll_iff a c).mpr
      (((Cell.sameAll_iff a b).mp hab).trans ((Cell.sameAll_iff b c).mp hbc)))
    (List.mem_map_of_mem (f := keyOf positions) hrow)
  exact ⟨key, (List.mergeSort_perm _ _).mem_iff.mpr hkey, hsame⟩

omit [LawfulScalar α] in
/-- Every key is that of some row. -/
theorem exists_row_of_sortedKey {key : List (Cell α)} (hkey : key ∈ sortedKeys positions rows) :
    ∃ row ∈ rows, keyOf positions row = key :=
  List.mem_map.mp
    ((firstOccurrences_sublist _ _).mem ((List.mergeSort_perm _ _).mem_iff.mp hkey))

/-- A row has the key of one signal only. -/
theorem sortedKey_unique {row : CellRow α} {a b : List (Cell α)}
    (ha : a ∈ sortedKeys positions rows) (hb : b ∈ sortedKeys positions rows)
    (hra : Cell.sameAll (keyOf positions row) a = true)
    (hrb : Cell.sameAll (keyOf positions row) b = true) : a = b := by
  rw [Cell.sameAll_iff] at hra hrb
  exact List.inj_on_of_nodup_map (nodup_sortedKeys positions rows) ha hb (hra.symm.trans hrb)

end Keys

/-! ## Cells of the key columns -/

section KeyCells

variable {t : Table α} {row : CellRow α} {name : String} {i : Nat}

omit [Scalar α] in
/-- The cell that a row has under the name of a column. -/
theorem lookup_zip {names : List String} {cells : List (Cell α)} (h : names.idxOf? name = some i)
    (hlen : cells.length = names.length) : (names.zip cells).lookup name = cells[i]? := by
  induction names generalizing i cells with
  | nil => cases h
  | cons first names ih =>
    rcases cells with - | ⟨cell, cells⟩
    · cases hlen
    rw [List.idxOf?_cons] at h
    rw [List.zip_cons_cons, List.lookup_cons]
    by_cases heq : first = name
    · subst heq
      simp only [BEq.rfl, if_true, Option.some.injEq] at h
      subst h
      simp
    · rw [if_neg (by simpa using heq), Option.map_eq_some_iff] at h
      obtain ⟨j, hj, rfl⟩ := h
      rw [show (name == first) = false by simpa using Ne.symm heq]
      simpa using ih hj (Nat.succ.inj hlen)

omit [Scalar α] in
theorem Table.get?_view (h : t.position? name = some i) (hwidth : row.value.length = t.names.length)
    (position : Nat) : (t.view position row).get? name = some (cellAt row i) := by
  have hi : i < row.value.length := by
    rw [hwidth]
    exact (List.idxOf?_eq_some_iff.mp h).1
  rw [Row.get?, view, lookup_zip h hwidth, cellAt, List.getD_eq_getElem _ _ hi,
    List.getElem?_eq_getElem hi]

end KeyCells

/-! ## Moving the start -/

section Start

variable [LawfulScalar α] {t : Table α} {start : α}

/-- Refitting a table to an earlier start moves its first row there. -/
theorem Table.Valid.refit_start (ht : t.Valid) (hne : t.rows ≠ []) (hstart : isFinite start = true)
    (hle : ∀ first ∈ t.times.head?, toRat start ≤ toRat first) (rule : EdgeRule) :
    t.refit (some start) none rule
      = .ok { t with rows := t.rows.modifyHead fun row => { row with time := start } } := by
  have hb : RefitBounds (some start) none :=
    ⟨fun a ha => Option.mem_some.mp ha ▸ hstart, fun _ hb => absurd hb (Option.not_mem_none _),
      fun _ _ _ hb => absurd hb (Option.not_mem_none _)⟩
  obtain ⟨windowed, hwindow, hrefit, hordered, -⟩ := refitRows_relabel ht.ordered hne hb rule
  rw [windowRows_all ht.ordered hb.proper hle (fun _ _ => le_rfl) rule] at hwindow
  obtain rfl := Except.ok.inj hwindow
  have hrows : Stamped.retime t.rows (relabel (Stamped.times t.rows) (some start) none)
      = t.rows.modifyHead fun row => { row with time := start } := by
    obtain ⟨row, rest, hrows⟩ := List.exists_cons_of_ne_nil hne
    rw [hrows]
    exact congrArg (_ :: ·) (Stamped.retime_times rest)
  rw [refit_eq hb hrefit hordered, ← hrows]
  rfl

end Start

/-! ## Signals -/

/-- The signals of a table: every row belongs to the one that has its cells in the key columns, and
together they are the rows of the table. -/
structure Table.Partition (t : Table Float) (columns : List String)
    (signals : List (Signal Float)) : Prop where
  increasing : signals.Pairwise fun a b => Cell.orderAll (a.key.map (·.2)) (b.key.map (·.2)) = .lt
  columns : ∀ s ∈ signals, s.key.map (·.1) = columns
  names : ∀ s ∈ signals, s.data.names = t.names
  cells : ∀ s ∈ signals, ∀ row ∈ s.data.allRows, ∀ named ∈ s.key,
    ∃ cell, row.get? named.1 = some cell ∧ Cell.same cell named.2 = true
  rows : ∀ s ∈ signals, s.data.rows.Sublist t.rows
  unique : ∀ row ∈ t.rows, ∃! s, s ∈ signals ∧ row ∈ s.data.rows
  interleaved : (signals.flatMap (·.data.rows)).mergeSort (fun a b => a.time ≤ b.time) = t.rows

/-- A signal whose first row is moved to the start of its table, and nothing else changed. -/
structure Signal.StartsWith (t : Table Float) (s moved : Signal Float) : Prop where
  key : moved.key = s.key
  names : moved.data.names = s.data.names
  rows : ∃ first row rest, t.times.head? = some first ∧ s.data.rows = row :: rest ∧
    moved.data.rows = { row with time := first } :: rest

section Partition

variable {t : Table Float} {columns : List String} {positions : List Nat}

theorem mem_rowsOfKey {key : List (Cell Float)} {row : CellRow Float} :
    row ∈ (t.rowsOfKey positions key).rows ↔
      row ∈ t.rows ∧ Cell.sameAll (keyOf positions row) key = true := List.mem_filter

/-- The cells of a row of a signal are those of its key. -/
theorem Table.Valid.exists_cell (ht : t.Valid) (hpositions : t.positions columns = .ok positions)
    {key : List (Cell Float)} {row : Row Float} (hrow : row ∈ (t.rowsOfKey positions key).allRows)
    {named : String × Cell Float} (hnamed : named ∈ columns.zip key) :
    ∃ cell, row.get? named.1 = some cell ∧ Cell.same cell named.2 = true := by
  obtain ⟨⟨source, place⟩, hsource, rfl⟩ := List.mem_map.mp hrow
  obtain ⟨hmem, hsame⟩ := mem_rowsOfKey.mp (List.fst_mem_of_mem_zipIdx hsource)
  obtain ⟨i, hi⟩ := List.mem_iff_getElem?.mp hnamed
  obtain ⟨hcolumn, hcell⟩ := List.getElem?_zip_eq_some.mp hi
  have hfound := mapM_eq_ok.mp hpositions
  have hlt : i < columns.length := (List.getElem?_eq_some_iff.mp hcolumn).1
  have hlt' : i < positions.length := hfound.length_eq ▸ hlt
  have hposition := hfound.get hlt hlt'
  rw [List.get_eq_getElem, List.get_eq_getElem, Table.position_eq_ok,
    (List.getElem?_eq_some_iff.mp hcolumn).2] at hposition
  refine ⟨_, Table.get?_view hposition (ht.width source hmem) place, ?_⟩
  -- the keys are the same, so their cells in this place are
  have hids := congrArg (·[i]?) ((Cell.sameAll_iff _ _).mp hsame)
  simpa [keyId, keyOf, hcell, hlt', ← Cell.same_iff] using hids

/-- Moving the start of a signal succeeds and moves its first row to the start of the table. -/
theorem Table.Valid.exists_moved (ht : t.Valid) (columns : List String) {key : List (Cell Float)}
    (hkey : key ∈ sortedKeys positions t.rows) :
    ∃ moved, (do
        let data ← (t.rowsOfKey positions key).refit t.times.head? none .inclusive
        return (⟨columns.zip key, data⟩ : Signal Float)) = .ok moved ∧
      Signal.StartsWith t ⟨columns.zip key, t.rowsOfKey positions key⟩ moved := by
  obtain ⟨row, hrow, rfl⟩ := exists_row_of_sortedKey hkey
  have hown : row ∈ (t.rowsOfKey positions (keyOf positions row)).rows :=
    mem_rowsOfKey.mpr ⟨hrow, (Cell.sameAll_iff _ _).mpr rfl⟩
  generalize keyOf positions row = key at hown
  have hrows : (t.rowsOfKey positions key).rows ≠ [] := List.ne_nil_of_mem hown
  have htimes : t.times ≠ [] := List.ne_nil_of_mem (List.mem_map_of_mem hrow)
  have hhead := List.head?_eq_some_head htimes
  generalize t.times.head htimes = first at hhead
  -- the signal begins with a row of the table, so not before the table does
  have hle : ∀ time ∈ (t.rowsOfKey positions key).times.head?, toRat first ≤ toRat time := by
    intro time htime
    obtain ⟨i, hi⟩ := List.mem_iff_getElem?.mp
      ((List.filter_sublist.map _).mem (List.mem_of_head? htime))
    exact ht.ordered.first_le hhead hi
  have hmoved := (ht.rowsOfKey positions key).refit_start hrows
    (ht.ordered.1 first (List.mem_of_head? hhead)) hle .inclusive
  obtain ⟨own, rest, hcons⟩ := List.exists_cons_of_ne_nil hrows
  rw [hhead, hmoved, ok_bind]
  refine ⟨_, rfl, rfl, rfl, first, own, rest, hhead, hcons, ?_⟩
  rw [hcons]
  rfl

/-- Sorting rows that are ordered, in whatever order they are given, puts them back in place. -/
theorem sortByTime_eq {rows shuffled : List (CellRow Float)} (h : Ordered (Stamped.times rows))
    (hperm : shuffled.Perm rows) : (shuffled.mergeSort fun a b => a.time ≤ b.time) = rows := by
  have hsort := List.mergeSort_perm shuffled fun a b => decide (a.time ≤ b.time)
  have hsorted := pairwise_sortByTime fun row hrow =>
    h.isMissing_of_mem (List.mem_map_of_mem (hperm.mem_iff.mp hrow))
  have hrows : rows.Pairwise fun a b => toRat a.time ≤ toRat b.time :=
    (List.pairwise_map.mp h.pairwise).imp le_of_lt
  refine (hsort.trans hperm).eq_of_pairwise (fun a b ha hb hab hba => ?_) hsorted hrows
  exact eq_of_toRat_time_eq h (hperm.mem_iff.mp (hsort.mem_iff.mp ha)) hb (hab.antisymm hba)

/-- The rows of all keys are the rows of the table, in another order. -/
theorem Table.Valid.rowsOfKey_perm (ht : t.Valid) (positions : List Nat) :
    ((sortedKeys positions t.rows).flatMap fun key => (t.rowsOfKey positions key).rows).Perm
      t.rows := by
  have hnodup := ht.rows_nodup
  have hkeys : (sortedKeys positions t.rows).Pairwise fun a b => keyId a ≠ keyId b :=
    List.pairwise_map.mp (nodup_sortedKeys positions t.rows)
  refine (List.perm_ext_iff_of_nodup (List.nodup_flatMap.mpr ⟨?_, ?_⟩) hnodup).mpr fun row => ?_
  · exact fun key _ => hnodup.sublist List.filter_sublist
  · -- a row has one key only
    refine hkeys.imp fun hne row ha hb => hne ?_
    rw [← (Cell.sameAll_iff _ _).mp (mem_rowsOfKey.mp ha).2,
      (Cell.sameAll_iff _ _).mp (mem_rowsOfKey.mp hb).2]
  · rw [List.mem_flatMap]
    constructor
    · rintro ⟨key, -, hrow⟩
      exact (mem_rowsOfKey.mp hrow).1
    · intro hrow
      obtain ⟨key, hkey, hsame⟩ := exists_sortedKey positions hrow
      exact ⟨key, hkey, mem_rowsOfKey.mpr ⟨hrow, hsame⟩⟩

/-- Splitting with the starts moved gives a signal for every key, as it is moved. -/
theorem Table.Valid.splitSignals_aligned (ht : t.Valid) (hne : columns ≠ [])
    (hpositions : t.positions columns = .ok positions) :
    ∃ aligned, t.splitSignals columns true = .ok aligned ∧ List.Forall₂ (Signal.StartsWith t)
      ((sortedKeys positions t.rows).map (StepSignal.signalOf t columns positions)) aligned := by
  rw [Table.splitSignals, if_neg (by simpa using hne), hpositions, ok_bind]
  obtain ⟨aligned, haligned, hmoved⟩ :=
    exists_mapM_ok fun key (hkey : key ∈ sortedKeys positions t.rows) =>
      ht.exists_moved columns hkey
  exact ⟨aligned, haligned, List.forall₂_map_left_iff.mpr hmoved⟩

/-- The rows of a table fall into the signals of its keys. -/
theorem Table.Valid.partition (ht : t.Valid) (hpositions : t.positions columns = .ok positions) :
    t.Partition columns
      ((sortedKeys positions t.rows).map (StepSignal.signalOf t columns positions)) := by
  have hlen : ∀ key ∈ sortedKeys positions t.rows, key.length = columns.length := by
    intro key hkey
    obtain ⟨row, -, rfl⟩ := exists_row_of_sortedKey hkey
    rw [keyOf, List.length_map, (mapM_eq_ok.mp hpositions).length_eq]
  have hunique : ∀ row ∈ t.rows,
      ∃! s, s ∈ (sortedKeys positions t.rows).map (StepSignal.signalOf t columns positions) ∧
        row ∈ s.data.rows := by
    intro row hrow
    obtain ⟨key, hkey, hsame⟩ := exists_sortedKey positions hrow
    refine ⟨_, ⟨List.mem_map_of_mem hkey, mem_rowsOfKey.mpr ⟨hrow, hsame⟩⟩, ?_⟩
    rintro s ⟨hs, hmem⟩
    obtain ⟨other, hother, rfl⟩ := List.mem_map.mp hs
    rw [sortedKey_unique hother hkey (mem_rowsOfKey.mp hmem).2 hsame]
  refine ⟨?_, ?_, ?_, ?_, ?_, hunique, ?_⟩
  · rw [List.pairwise_map]
    refine (pairwise_sortedKeys positions t.rows).imp_of_mem fun {a b} ha hb hlt => ?_
    have hsnd : ∀ key ∈ sortedKeys positions t.rows, (columns.zip key).map (·.2) = key :=
      fun key hkey => List.map_snd_zip (hlen key hkey).le
    simpa only [StepSignal.signalOf, hsnd a ha, hsnd b hb] using hlt
  · exact List.forall_mem_map.mpr fun key hkey => List.map_fst_zip (hlen key hkey).ge
  · exact List.forall_mem_map.mpr fun key hkey => rfl
  · exact List.forall_mem_map.mpr fun key _ row hrow named hnamed =>
      ht.exists_cell hpositions hrow hnamed
  · exact List.forall_mem_map.mpr fun key _ => List.filter_sublist
  · rw [List.flatMap_map]
    exact sortByTime_eq ht.ordered (ht.rowsOfKey_perm positions)

/-- **Splitting partitions the table.** The signals of any key columns have increasing keys, and
every row is in the one signal that has its cells. Moving the starts changes the time of the first
row of each signal and nothing else. -/
theorem splitSignals_partition {t : Table Float} (ht : t.Valid) {columns : List String}
    (hne : columns ≠ []) (hcolumns : ∀ column ∈ columns, column ∈ t.names) :
    ∃ signals aligned, t.splitSignals columns false = .ok signals ∧
      t.splitSignals columns true = .ok aligned ∧
      t.Partition columns signals ∧ List.Forall₂ (Signal.StartsWith t) signals aligned := by
  obtain ⟨positions, hpositions⟩ := Table.exists_positions hcolumns
  obtain ⟨aligned, haligned, hmoved⟩ := ht.splitSignals_aligned hne hpositions
  have hkeys : signalKeys t columns positions = sortedKeys positions t.rows :=
    if_neg (by simpa using hne)
  have hsplit := t.splitSignals_eq hpositions
  rw [hkeys] at hsplit
  exact ⟨_, aligned, hsplit, haligned, ht.partition hpositions, hmoved⟩

/-- Four rows of two signals: the two zeros are one key, whichever of them comes first. -/
theorem splitSignals_partition_of_zeros :
    let t : Table Float := ⟨["cpu"], [⟨0, [.num (-0.0)]⟩, ⟨1, [.int 2]⟩, ⟨2, [.num 0]⟩,
      ⟨3, [.int 2]⟩]⟩
    t.Valid ∧ (["cpu"] : List String) ≠ [] ∧ (∀ column ∈ ["cpu"], column ∈ t.names) ∧
      ∃ signals aligned, t.splitSignals ["cpu"] false = .ok signals ∧
        t.splitSignals ["cpu"] true = .ok aligned ∧
        t.Partition ["cpu"] signals ∧ List.Forall₂ (Signal.StartsWith t) signals aligned := by
  intro t
  have ht : t.Valid := ⟨checkIndex_eq_ok.mp rfl, by decide, by decide⟩
  have hcolumns : ∀ column ∈ ["cpu"], column ∈ t.names := by decide
  exact ⟨ht, by decide, hcolumns, splitSignals_partition ht (by decide) hcolumns⟩

end Partition

end StepSignal
