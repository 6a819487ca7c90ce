import StepSignal.OuterJoin
import StepSignal.Proofs.Refit
import StepSignal.Proofs.Repeats
import StepSignal.Signals
import StepSignal.Squash

/-!
# Valid tables

Only what builds a table from outside checks it. Every other operation has to keep a table valid by
itself: most take some of the rows in their order, refitting and replacing times check the new
index, squashing puts one row in front, and joining fills rows up to the new width.
-/

namespace StepSignal

open Scalar

/-- A row as a table holds it. -/
abbrev CellRow (α : Type) := Stamped α (List (Cell α))

variable {α : Type} [Scalar α]

namespace Table

variable {t out : Table α}

/-! ## From outside -/

theorem valid_ofIndex {index : List α} (h : ofIndex index = .ok t) : t.Valid := by
  obtain ⟨_, hcheck, hout⟩ := bind_eq_ok.mp h
  obtain rfl := Except.ok.inj hout
  refine ⟨?_, by simp, List.nodup_nil⟩
  have htimes : (⟨[], index.map (⟨·, []⟩)⟩ : Table α).times = index := by
    simp [times, Stamped.times, Function.comp_def]
  rw [htimes]
  exact checkIndex_eq_ok.mp hcheck

theorem Valid.withColumn (ht : t.Valid) {c : Column α} (h : t.withColumn c = .ok out) :
    out.Valid := by
  unfold Table.withColumn at h
  split at h
  · cases h
  rename_i hlen
  split at h
  · cases h
  rename_i hname
  obtain rfl := Except.ok.inj h
  refine ⟨?_, ?_, ?_⟩
  · rw [times, Stamped.times_zipWith (by simp) (not_not.mp hlen)]
    exact ht.ordered
  · intro row hrow
    obtain ⟨i, hi⟩ := List.mem_iff_getElem?.mp hrow
    obtain ⟨source, cell, hsource, -, rfl⟩ := List.getElem?_zipWith_eq_some.mp hi
    simp [ht.width source (List.mem_of_getElem? hsource)]
  -- the name of the new column is none of the others
  · have hnew : c.name ∉ t.names := by simpa using hname
    exact List.nodup_append.mpr ⟨ht.distinct, by simp, fun a ha b hb => by
      rintro rfl
      exact hnew (List.mem_singleton.mp hb ▸ ha)⟩

theorem valid_ofColumns {index : List α} {columns : List (Column α)}
    (h : ofColumns index columns = .ok t) : t.Valid := by
  obtain ⟨empty, hempty, hfold⟩ := bind_eq_ok.mp h
  exact foldlM_ok (fun _ _ _ _ ha hnext => ha.withColumn hnext) (valid_ofIndex hempty) hfold

/-- The first columns of a table. -/
def firstColumns (t : Table α) (k : Nat) : Table α :=
  ⟨t.names.take k, t.rows.map fun row => { row with value := row.value.take k }⟩

/-- Adding the next column to the first ones gives one more. -/
theorem Valid.withColumn_firstColumns (ht : t.Valid) {k : Nat} (hk : k < t.names.length) :
    (t.firstColumns k).withColumn ⟨t.names[k], t.cellsAt k⟩ = .ok (t.firstColumns (k + 1)) := by
  have hlength : (t.cellsAt k).length = (t.firstColumns k).length := by
    simp [cellsAt, firstColumns, Table.length]
  have hname : t.names[k] ∉ t.names.take k := by
    intro hmem
    obtain ⟨i, hi, heq⟩ := List.mem_take_iff_getElem.mp hmem
    have := (ht.distinct.getElem_inj_iff).mp heq
    omega
  rw [Table.withColumn, if_neg (not_not_intro hlength),
    if_neg (by simpa [firstColumns] using hname)]
  refine congrArg Except.ok (congrArg₂ Table.mk ?_ ?_)
  · exact List.take_append_getElem hk
  · rw [firstColumns, cellsAt, List.zipWith_map, List.zipWith_self]
    refine List.map_congr_left fun row hrow => ?_
    have hwidth : k < row.value.length := by rw [ht.width row hrow]; exact hk
    rw [cellAt, List.getD_eq_getElem _ _ hwidth, List.take_append_getElem hwidth]

/-- A valid table is built from its times and columns. -/
theorem Valid.ofColumns_columns (ht : t.Valid) : ofColumns t.times t.columns = .ok t := by
  have hempty : ofIndex t.times = .ok (t.firstColumns 0) := by
    rw [ofIndex, checkIndex_eq_ok.mpr ht.ordered, ok_bind, firstColumns, times, Stamped.times,
      List.map_map]
    rfl
  have hall : t.firstColumns t.names.length = t := by
    refine congrArg₂ Table.mk List.take_length ?_
    calc t.rows.map (fun row => { row with value := row.value.take t.names.length })
        = t.rows.map id := List.map_congr_left fun row hrow => by
          rw [← ht.width row hrow, List.take_length]
          rfl
      _ = t.rows := List.map_id _
  have hsteps : ∀ k ≤ t.names.length,
      (t.columns.take k).foldlM Table.withColumn (t.firstColumns 0) = .ok (t.firstColumns k) := by
    intro k
    induction k with
    | zero => exact fun _ => rfl
    | succ k ih =>
      intro hk
      have hsize : k < t.columns.length := by simpa [columns] using hk
      have hcolumn : t.columns[k] = ⟨t.names[k], t.cellsAt k⟩ := by simp [columns]
      rw [List.take_succ_eq_append_getElem hsize, List.foldlM_append,
        ih (by omega), ok_bind, hcolumn, List.foldlM_cons, ht.withColumn_firstColumns hk]
      rfl
  have hcolumns := hsteps t.names.length le_rfl
  rw [List.take_of_length_le (by simp [columns]), hall] at hcolumns
  rw [ofColumns, hempty, ok_bind, hcolumns]

/-! ## Other times -/

theorem withTimes_eq_ok {index : List α} : t.withTimes index = .ok out ↔
    index.length = t.length ∧ Ordered index ∧
      out = { t with rows := Stamped.retime t.rows index } := by
  unfold Table.withTimes
  rw [← checkIndex_eq_ok]
  by_cases hlen : index.length = t.length
  · rcases hcheck : checkIndex index with _ | ⟨⟩ <;> simp [hlen, eq_comm]
  · simp [hlen]

theorem Valid.withTimes (ht : t.Valid) {index : List α} (h : t.withTimes index = .ok out) :
    out.Valid := by
  obtain ⟨hlen, hordered, rfl⟩ := withTimes_eq_ok.mp h
  refine ⟨?_, ?_, ht.distinct⟩
  · rwa [times, Stamped.times_retime _ _ hlen]
  · intro row hrow
    have hvalues := Stamped.values_retime t.rows index hlen
    have hrow := List.mem_map_of_mem (f := (·.value)) hrow
    rw [hvalues] at hrow
    obtain ⟨source, hsource, heq⟩ := List.mem_map.mp hrow
    exact heq ▸ ht.width source hsource

/-! ## Fewer columns and fewer rows -/

/-- Picking by the same choices takes as many values from every list of one length. -/
theorem length_pick {β γ : Type} {choices : List Bool} {xs : List β} {ys : List γ}
    (h : xs.length = ys.length) : (pick choices xs).length = (pick choices ys).length := by
  induction choices generalizing xs ys with
  | nil => simp [pick]
  | cons c choices ih =>
    rcases xs with - | ⟨x, xs⟩ <;> rcases ys with - | ⟨y, ys⟩
    · rfl
    · cases h
    · cases h
    · have := ih (Nat.succ.inj h)
      unfold pick at this ⊢
      cases c <;> simpa using this

theorem pick_sublist {β : Type} (choices : List Bool) (xs : List β) :
    (pick choices xs).Sublist xs := by
  induction choices generalizing xs with
  | nil => simp [pick]
  | cons c choices ih =>
    rcases xs with - | ⟨x, xs⟩
    · exact .slnil
    · have := ih xs
      unfold pick at this ⊢
      cases c
      · simpa using this.cons x
      · simpa using this

/-- Choosing by a test is filtering by it. -/
theorem pick_map {β : Type} (test : β → Bool) (xs : List β) :
    pick (xs.map test) xs = xs.filter test := by
  induction xs with
  | nil => rfl
  | cons x xs ih =>
    unfold pick at ih ⊢
    rw [List.map_cons, List.zip_cons_cons, List.filterMap_cons, ih, List.filter_cons]
    cases test x <;> rfl

theorem Valid.dropColumns (ht : t.Valid) {names : List String}
    (h : t.dropColumns names = .ok out) : out.Valid := by
  obtain ⟨_, -, hout⟩ := bind_eq_ok.mp h
  obtain rfl := Except.ok.inj hout
  refine ⟨?_, ?_, ht.distinct.sublist (pick_sublist _ _)⟩
  · simpa [times, Stamped.times, Function.comp_def] using ht.ordered
  · intro row hrow
    obtain ⟨source, hsource, rfl⟩ := List.mem_map.mp hrow
    exact length_pick (ht.width source hsource)

variable [LawfulScalar α]

/-- No two rows are equal, as their times differ. -/
theorem Valid.rows_nodup (ht : t.Valid) : t.rows.Nodup := by
  have htimes : t.times.Nodup := ht.ordered.pairwise.imp fun hlt heq =>
    LT.lt.ne hlt (congrArg toRat heq)
  exact htimes.of_map

/-- A table with some of the rows, in their order, is valid. -/
theorem Valid.sublist (ht : t.Valid) {rows : List (CellRow α)} (hs : rows.Sublist t.rows) :
    ({ t with rows } : Table α).Valid where
  ordered := ht.ordered.sublist (hs.map _)
  width row hrow := ht.width row (hs.mem hrow)
  distinct := ht.distinct

theorem Valid.emptyLike (ht : t.Valid) : t.emptyLike.Valid := ht.sublist (List.nil_sublist _)

theorem Valid.filterRows (ht : t.Valid) (accept : Row α → Bool) : (t.filterRows accept).Valid := by
  refine ht.sublist ?_
  have hs := (List.filter_sublist (p := fun row => accept (t.view row.2 row.1))
    (l := t.rows.zipIdx)).map Prod.fst
  rwa [List.zipIdx_map_fst] at hs

theorem Valid.rowsOfKey (ht : t.Valid) (positions : List Nat) (key : List (Cell α)) :
    (t.rowsOfKey positions key).Valid := ht.sublist List.filter_sublist

theorem Valid.slice (ht : t.Valid) {start stop : Nat} (h : t.slice start stop = .ok out) :
    out.Valid := by
  unfold Table.slice at h
  split at h
  · obtain rfl := Except.ok.inj h
    exact ht.sublist (Stamped.extract_sublist _ _ _)
  · cases h

theorem Valid.whereCells (ht : t.Valid) {conditions : List (String × Cell α)}
    (h : t.whereCells conditions = .ok out) : out.Valid := by
  obtain ⟨positions, -, hout⟩ := bind_eq_ok.mp h
  obtain rfl := Except.ok.inj hout
  exact ht.sublist List.filter_sublist

theorem Valid.selectTasks (ht : t.Valid) {tasks : List Task} {pidColumn commColumn : Option String}
    {invert : Bool} {nameLength : Nat}
    (h : t.selectTasks tasks pidColumn commColumn invert nameLength = .ok out) : out.Valid := by
  obtain ⟨pidAt, -, h⟩ := bind_eq_ok.mp h
  obtain ⟨commAt, -, h⟩ := bind_eq_ok.mp h
  obtain rfl := Except.ok.inj h
  exact ht.sublist List.filter_sublist

theorem Valid.withoutRepeats (ht : t.Valid) {keep : Keep} {scope : RepeatScope}
    {columns : Option (List String)} {allColumns : Bool}
    (h : t.withoutRepeats keep scope columns allColumns = .ok out) : out.Valid := by
  unfold Table.withoutRepeats at h
  by_cases hrefused : (decide (scope = .anywhere) && !allColumns) = true
  · rw [if_pos hrefused] at h
    cases h
  rw [if_neg hrefused] at h
  cases columns with
  | none =>
    obtain rfl := Except.ok.inj h
    exact ht.sublist (withoutRepeats_sublist _ _ _ _)
  | some names =>
    obtain ⟨positions, -, h⟩ := bind_eq_ok.mp h
    obtain rfl := Except.ok.inj h
    exact ht.sublist (withoutRepeats_sublist _ _ _ _)

/-! ## Windows -/

theorem Valid.window (ht : t.Valid) {w : Window α} {rule : EdgeRule} {clipped : Bool}
    (h : t.window w rule clipped = .ok out) : out.Valid := by
  obtain ⟨rows, hrows, h⟩ := bind_eq_ok.mp h
  obtain rfl := Except.ok.inj h
  exact ht.sublist (windowRows_sublist hrows)

theorem Valid.refit (ht : t.Valid) {start stop : Option α} {rule : EdgeRule}
    (h : t.refit start stop rule = .ok out) : out.Valid := by
  obtain ⟨_, -, h⟩ := bind_eq_ok.mp h
  obtain ⟨rows, hrows, h⟩ := bind_eq_ok.mp h
  exact (ht.sublist (refitRows_sublist hrows)).withTimes h

end Table

/-! ## Squashing -/

theorem map_fst_zip_sublist {β γ : Type} (xs : List β) (ys : List γ) :
    ((xs.zip ys).map Prod.fst).Sublist xs := by
  induction xs generalizing ys with
  | nil => exact .slnil
  | cons x xs ih =>
    rcases ys with - | ⟨y, ys⟩
    · exact List.nil_sublist _
    · exact (ih ys).cons_cons x

section Squashing

variable {β : Type} {lasting : α → β → β} {rows : List (Lasting α β)} {start stop : α}

/-- The times of lasting rows. -/
def lastingTimes (rows : List (Lasting α β)) : List α := rows.map (·.1.time)

theorem rowsBetween_sublist : (rowsBetween rows start stop).Sublist rows :=
  (List.takeWhile_sublist _).trans (List.dropWhile_sublist _)

/-- The first row between the bounds is not before the start. -/
theorem not_lt_of_head?_rowsBetween {row : Lasting α β}
    (h : (rowsBetween rows start stop).head? = some row) : lt row.1.time start = false := by
  -- the first row that is left is one that was not dropped
  have hdrop := List.head?_dropWhile_not (fun row : Lasting α β => lt row.1.time start) rows
  unfold rowsBetween at h
  rcases hrest : rows.dropWhile fun row => lt row.1.time start with - | ⟨x, rest⟩
  · rw [hrest] at h
    cases h
  · rw [hrest] at h hdrop
    rw [List.takeWhile_cons] at h
    split at h
    · obtain rfl := Option.some.inj h
      exact hdrop
    · cases h

theorem times_cutAt_sublist :
    (Stamped.times (cutAt lasting stop rows)).Sublist (lastingTimes rows) := by
  fun_induction cutAt lasting stop rows with
  | case1 => exact .slnil
  | case2 => exact List.nil_sublist _
  | case3 => exact .refl _
  | case4 row _ next rest ih => exact ih.cons_cons row.time

/-- A row of a squashed list has the value of a row of the list, up to a new duration. -/
theorem mem_cutAt {piece : Stamped α β} (h : piece ∈ cutAt lasting stop rows) :
    ∃ row ∈ rows, piece.value = row.1.value ∨ ∃ d, piece.value = lasting d row.1.value := by
  fun_induction cutAt lasting stop rows with
  | case1 => cases h
  | case2 => cases h
  | case3 row duration =>
    obtain rfl := List.mem_singleton.mp h
    exact ⟨_, List.mem_singleton_self _, .inr ⟨_, rfl⟩⟩
  | case4 row duration next rest ih =>
    rcases List.mem_cons.mp h with rfl | h
    · exact ⟨_, List.mem_cons_self, .inl rfl⟩
    · obtain ⟨source, hsource, hvalue⟩ := ih h
      exact ⟨source, List.mem_cons_of_mem _ hsource, hvalue⟩

variable (lasting rows start stop) in
/-- The row pulled forward is put at the start, and no row between the bounds is there. -/
theorem openingPiece_cases (inside : List (Lasting α β)) :
    openingPiece lasting rows inside start stop = [] ∨
      ∃ d, ∃ row ∈ rows,
        openingPiece lasting rows inside start stop = [⟨start, lasting d row.1.value⟩] ∧
        ∀ next, inside.head? = some next → eq next.1.time start = false := by
  unfold openingPiece
  split <;> rename_i hprogress
  · exact .inl rfl
  rename_i row _
  have hmem := (List.takeWhile_sublist _).mem (List.mem_of_getLast? hprogress)
  split <;> rename_i hhead
  · rename_i next _
    split <;> rename_i heq
    · exact .inl rfl
    · refine .inr ⟨_, _, hmem, rfl, fun other hother => ?_⟩
      rw [hhead] at hother
      obtain rfl := Option.some.inj hother
      simpa using heq
  · refine .inr ⟨_, _, hmem, rfl, fun other hother => ?_⟩
    rw [hhead] at hother
    cases hother

theorem mem_squashRows {piece : Stamped α β} (h : piece ∈ squashRows lasting rows start stop) :
    ∃ row ∈ rows, piece.value = row.1.value ∨ ∃ d, piece.value = lasting d row.1.value := by
  rcases List.mem_append.mp h with h | h
  · rcases openingPiece_cases lasting rows start stop (rowsBetween rows start stop)
      with hnone | ⟨d, row, hrow, hone, -⟩
    · rw [hnone] at h
      cases h
    · rw [hone] at h
      obtain rfl := List.mem_singleton.mp h
      exact ⟨row, hrow, .inr ⟨d, rfl⟩⟩
  · obtain ⟨row, hrow, hvalue⟩ := mem_cutAt h
    exact ⟨row, rowsBetween_sublist.mem hrow, hvalue⟩

variable [LawfulScalar α]

/-- A time can be put in front of an ordered index when it is not the first one and not after it. -/
theorem Ordered.cons {index : List α} (h : Ordered index) (hstart : isFinite start = true)
    (hfirst : ∀ t, index.head? = some t → lt t start = false ∧ eq t start = false) :
    Ordered (start :: index) := by
  -- `start` by itself is an ordered index that the other one follows
  have hsingle : Ordered [start] := ⟨List.forall_mem_singleton.mpr hstart, trivial⟩
  refine hsingle.append h fun s hs t ht => ?_
  obtain rfl := List.mem_singleton.mp hs
  have hnumber := LawfulScalar.isMissing_of_isFinite s hstart
  have hnumber' := h.isMissing_of_mem (List.mem_of_head? ht)
  have hfirst := hfirst t ht
  rw [lt_eq hnumber' hnumber, eq_eq hnumber' hnumber] at hfirst
  simp only [decide_eq_false_iff_not, not_lt] at hfirst
  exact lt_of_le_of_ne hfirst.1 (Ne.symm hfirst.2)

/-- Squashing keeps rows ordered. -/
theorem ordered_squashRows (h : Ordered (lastingTimes rows)) (hstart : isFinite start = true) :
    Ordered (Stamped.times (squashRows lasting rows start stop)) := by
  have hinside : Ordered (lastingTimes (rowsBetween rows start stop)) :=
    h.sublist (rowsBetween_sublist.map _)
  unfold squashRows
  dsimp only
  rw [Stamped.times, List.map_append]
  rcases openingPiece_cases lasting rows start stop (rowsBetween rows start stop)
    with hnone | ⟨d, row, -, hone, hfirst⟩
  · rw [hnone]
    exact hinside.sublist times_cutAt_sublist
  · rw [hone]
    -- the row in front is at the start, where no row of the window is
    refine (hinside.cons hstart fun t ht => ?_).sublist (times_cutAt_sublist.cons_cons start)
    rw [lastingTimes, List.head?_map, Option.map_eq_some_iff] at ht
    obtain ⟨next, hnext, rfl⟩ := ht
    exact ⟨not_lt_of_head?_rowsBetween hnext, hfirst next hnext⟩

end Squashing

variable {t out : Table α}

/-- What squashing gives: the table itself if it has no rows, else no rows or the squashed ones. -/
theorem Table.squash_cases {start stop : α} {column : String}
    (h : t.squash start stop column = .ok out) :
    isFinite start = true ∧ (out = t ∨ out = t.emptyLike ∨ ∃ i durations close,
      out = { t with
        rows := squashRows (fun d cells => cells.set i (.num d)) (t.rows.zip durations) start
          close }) := by
  unfold Table.squash at h
  by_cases hfinite : (isFinite start && isFinite stop) = true
  case neg =>
    rw [if_neg hfinite] at h
    cases h
  rw [if_pos hfinite] at h
  rw [Bool.and_eq_true] at hfinite
  refine ⟨hfinite.1, ?_⟩
  by_cases hempty : t.isEmpty = true
  · simp only [hempty, if_true] at h
    exact .inl (Except.ok.inj h).symm
  simp -zeta only [hempty] at h
  obtain ⟨i, -, h⟩ := bind_eq_ok.mp h
  obtain ⟨durations, -, h⟩ := bind_eq_ok.mp h
  extract_lets rows close lasting at h
  split at h
  · exact .inr (.inl (Except.ok.inj h).symm)
  · exact .inr (.inr ⟨i, durations, close, (Except.ok.inj h).symm⟩)

section SquashedTables

variable [LawfulScalar α]

/-- Squashing the rows of a valid table gives the rows of one. -/
theorem Table.Valid.squashRows (ht : t.Valid) {lasting : α → List (Cell α) → List (Cell α)}
    (hlasting : ∀ d cells, (lasting d cells).length = cells.length) (durations : List α)
    {start : α} (hstart : isFinite start = true) (stop : α) :
    ({ t with rows := StepSignal.squashRows lasting (t.rows.zip durations) start stop } :
      Table α).Valid := by
  have htimes : (lastingTimes (t.rows.zip durations)).Sublist t.times := by
    rw [lastingTimes, ← Function.comp_def Stamped.time Prod.fst, ← List.map_map]
    exact (map_fst_zip_sublist _ _).map _
  refine ⟨ordered_squashRows (ht.ordered.sublist htimes) hstart, ?_, ht.distinct⟩
  intro piece hpiece
  obtain ⟨row, hrow, hvalue⟩ := mem_squashRows hpiece
  have hwidth := ht.width row.1 (List.of_mem_zip hrow).1
  rcases hvalue with hvalue | ⟨d, hvalue⟩
  · rw [hvalue, hwidth]
  · rw [hvalue, hlasting, hwidth]

theorem Table.Valid.squash (ht : t.Valid) {start stop : α} {column : String}
    (h : t.squash start stop column = .ok out) : out.Valid := by
  obtain ⟨hstart, rfl | rfl | ⟨i, durations, close, rfl⟩⟩ := Table.squash_cases h
  · exact ht
  · exact ht.emptyLike
  · exact ht.squashRows (fun _ _ => List.length_set) durations hstart close

end SquashedTables

/-! ## Joining -/

/-- Joined rows are as wide as both sides together. -/
theorem length_of_mem_joinRows {leftWidth rightWidth : Nat} {ls rs : List (CellRow α)}
    (hls : ∀ l ∈ ls, l.value.length = leftWidth) (hrs : ∀ r ∈ rs, r.value.length = rightWidth)
    {row : CellRow α} (h : row ∈ joinRows leftWidth rightWidth ls rs) :
    row.value.length = leftWidth + rightWidth := by
  fun_induction joinRows leftWidth rightWidth ls rs with
  | case1 rs =>
    obtain ⟨r, hr, rfl⟩ := List.mem_map.mp h
    simp [hrs r hr]
  | case2 ls =>
    obtain ⟨l, hl, rfl⟩ := List.mem_map.mp h
    simp [hls l hl]
  | case3 l ls r rs _ ih =>
    rw [List.forall_mem_cons] at hls hrs
    rcases List.mem_cons.mp h with rfl | h
    · simp [hls.1, hrs.1]
    · exact ih hls.2 hrs.2 h
  | case4 l ls r rs _ _ ih =>
    rw [List.forall_mem_cons] at hls
    rcases List.mem_cons.mp h with rfl | h
    · simp [hls.1]
    · exact ih hls.2 hrs h
  | case5 l ls r rs _ _ ih =>
    rw [List.forall_mem_cons] at hrs
    rcases List.mem_cons.mp h with rfl | h
    · simp [hrs.1]
    · exact ih hls hrs.2 h

theorem nodup_of_firstRepeated {seen names : List String} (h : firstRepeated seen names = none) :
    names.Nodup ∧ ∀ name ∈ names, name ∉ seen := by
  induction names generalizing seen with
  | nil => simp
  | cons name names ih =>
    rw [firstRepeated] at h
    split at h <;> rename_i hseen
    · cases h
    · obtain ⟨hnodup, hfresh⟩ := ih h
      refine ⟨List.nodup_cons.mpr ⟨fun hmem => ?_, hnodup⟩, ?_⟩
      · exact hfresh name hmem List.mem_cons_self
      · intro other hother
        rcases List.mem_cons.mp hother with rfl | hother
        · simpa using hseen
        · exact fun hmem => hfresh other hother (List.mem_cons_of_mem name hmem)

theorem Table.Valid.outerJoin {left right : Table α} (hl : left.Valid) (hr : right.Valid)
    (h : left.outerJoin right = .ok out) : out.Valid := by
  obtain ⟨_, hcheck, h⟩ := bind_eq_ok.mp h
  split at h <;> rename_i hrepeated
  · cases h
  obtain rfl := Except.ok.inj h
  refine ⟨checkIndex_eq_ok.mp hcheck, fun row hrow => ?_, (nodup_of_firstRepeated hrepeated).1⟩
  rw [length_of_mem_joinRows hl.width hr.width hrow]
  simp [joinNames]

theorem Table.Valid.prepare [LawfulScalar α] (ht : t.Valid) {p : Preparation α}
    (h : t.prepare p = .ok out) : out.Valid := by
  obtain ⟨kept, hkept, hdrop⟩ := bind_eq_ok.mp h
  exact (ht.whereCells hkept).dropColumns hdrop

theorem valid_mergeAll [LawfulScalar α] {tables : List (Table α)} (htables : ∀ t ∈ tables, t.Valid)
    {p : Preparation α} (h : mergeAll tables p = .ok out) : out.Valid := by
  obtain ⟨prepared, hprepared, h⟩ := bind_eq_ok.mp h
  have hvalid : ∀ t ∈ prepared, t.Valid := fun t ht => by
    obtain ⟨source, hsource, hprepare⟩ := exists_of_mem_mapM hprepared ht
    exact (htables source hsource).prepare hprepare
  rcases prepared with - | ⟨first, rest⟩
  · cases h
  · refine foldlM_ok ?_ (hvalid first List.mem_cons_self) h
    intro t ht joined next hjoined hnext
    exact hjoined.outerJoin (hvalid t (List.mem_cons_of_mem _ ht)) hnext

end StepSignal
