import StepSignal.Proofs.Table

/-!
# What an outer join holds

A table is asked for its row at a time, and for its cells then, all empty where it has no row. The
join of two tables has a row where either has one, with the cells of both at that time. From this
one step the same follows for the join of a list of tables, which is built from left to right.
-/

namespace StepSignal

open Scalar

variable {α : Type} [Scalar α]

/-! ## The row at a time -/

/-- The row at a time, which is compared as a number. -/
def rowOn (rows : List (CellRow α)) (time : α) : Option (CellRow α) :=
  rows.find? fun row => eq row.time time

/-- The cells of a row, and empty ones in place of a row that is not there. -/
def cellsOr (width : Nat) (row : Option (CellRow α)) : List (Cell α) :=
  (row.map (·.value)).getD (List.replicate width .null)

/-- The cells of a table at a time, all empty where it has no row. -/
def Table.cellsOn (t : Table α) (time : α) : List (Cell α) :=
  cellsOr t.names.length (rowOn t.rows time)

section Rows

variable {rows ls rs : List (CellRow α)} {row l r : CellRow α} {time : α}

theorem rowOn_cons (row : CellRow α) (rows : List (CellRow α)) (time : α) :
    rowOn (row :: rows) time = if eq row.time time then some row else rowOn rows time := by
  rw [rowOn, List.find?_cons]
  rcases eq row.time time <;> rfl

theorem rowOn_isSome :
    (rowOn rows time).isSome = true ↔ ∃ s ∈ Stamped.times rows, eq s time = true := by
  simp [rowOn, Stamped.times, List.find?_isSome]

variable [LawfulScalar α]

/-- A row is the one at its own time. -/
theorem rowOn_of_mem (h : Ordered (Stamped.times rows)) (hrow : row ∈ rows) :
    rowOn rows row.time = some row := by
  induction rows with
  | nil => cases hrow
  | cons first rows ih =>
    have hnumber : ∀ s ∈ first :: rows, isMissing s.time = false := fun s hs =>
      h.isMissing_of_mem (List.mem_map_of_mem hs)
    rw [rowOn_cons, eq_eq (hnumber first List.mem_cons_self) (hnumber row hrow)]
    rcases List.mem_cons.mp hrow with rfl | hrow
    · simp
    · have hlt := (List.pairwise_cons.mp h.pairwise).1 _ (List.mem_map_of_mem hrow)
      rw [decide_eq_false hlt.ne]
      exact ih (h.sublist (List.sublist_cons_self _ _)) hrow

/-- No row is at a time that comes before all rows. -/
theorem rowOn_eq_none (h : Ordered (Stamped.times (r :: rs))) (hl : lt l.time r.time = true)
    (htime : eq l.time time = true) : rowOn (r :: rs) time = none := by
  obtain ⟨-, -, hlr⟩ := (LawfulScalar.lt_iff _ _).mp hl
  obtain ⟨-, -, htime⟩ := (LawfulScalar.eq_iff _ _).mp htime
  rw [rowOn, List.find?_eq_none]
  intro s hs heq
  obtain ⟨-, -, heq⟩ := (LawfulScalar.eq_iff _ _).mp heq
  obtain ⟨i, hi⟩ := List.mem_iff_getElem?.mp (List.mem_map_of_mem (f := Stamped.time) hs)
  have hle := h.first_le rfl hi
  exact (hlr.trans_le hle).ne (htime.trans heq.symm)

/-- A join has a row at a time where either side has one, with the cells of both. -/
theorem rowOn_joinRows (leftWidth rightWidth : Nat) (hls : Ordered (Stamped.times ls))
    (hrs : Ordered (Stamped.times rs)) (time : α) :
    (rowOn (joinRows leftWidth rightWidth ls rs) time).map (·.value) =
      if (rowOn ls time).isSome || (rowOn rs time).isSome then
        some (cellsOr leftWidth (rowOn ls time) ++ cellsOr rightWidth (rowOn rs time))
      else none := by
  have tail : ∀ {row : CellRow α} {rows}, Ordered (Stamped.times (row :: rows)) →
      Ordered (Stamped.times rows) := fun h => h.sublist (List.sublist_cons_self _ _)
  fun_induction joinRows leftWidth rightWidth ls rs with
  | case1 rs =>
    rw [rowOn, List.find?_map]
    show Option.map _ (Option.map _ (rowOn rs time)) = _
    rcases rowOn rs time <;> simp [rowOn, cellsOr]
  | case2 ls =>
    rw [rowOn, List.find?_map]
    show Option.map _ (Option.map _ (rowOn ls time)) = _
    rcases rowOn ls time <;> simp [rowOn, cellsOr]
  | case3 l ls r rs heq ih =>
    rw [rowOn_cons, rowOn_cons, rowOn_cons, ← eq_congr heq time]
    by_cases htime : eq l.time time = true
    · simp [htime, cellsOr]
    · simpa [htime] using ih (tail hls) (tail hrs)
  | case4 l ls r rs _ hlt ih =>
    rw [rowOn_cons, rowOn_cons]
    by_cases htime : eq l.time time = true
    · simp [rowOn_eq_none hrs hlt htime, htime, cellsOr]
    · simpa [htime] using ih (tail hls) hrs
  | case5 l ls r rs hne hnlt ih =>
    have hl := hls.isMissing_of_mem List.mem_cons_self
    have hr := hrs.isMissing_of_mem List.mem_cons_self
    have hlt : lt r.time l.time = true := lt_of_not_lt hl hr hne hnlt
    rw [rowOn_cons, rowOn_cons r rs]
    by_cases htime : eq r.time time = true
    · simp [rowOn_eq_none hls hlt htime, htime, cellsOr]
    · simpa [htime] using ih hls (tail hrs)

end Rows

/-! ## Column names -/

/-- A column name as joins write it: itself, or with the endings of the joins that it collided in.
-/
inductive Renamed (name : String) : String → Prop
  | same : Renamed name name
  | left {n : String} : Renamed name n → Renamed name (n ++ "_x")
  | right {n : String} : Renamed name n → Renamed name (n ++ "_y")

/-- The columns of a join are those of the left side, then those of the right side. -/
theorem renamed_joinNames {names left : List String} (h : List.Forall₂ Renamed names left)
    (right : List String) : List.Forall₂ Renamed (names ++ right) (joinNames left right) := by
  refine List.rel_append ?_ ?_
  · rw [List.forall₂_map_right_iff]
    refine h.imp fun name n hn => ?_
    split
    · exact .left hn
    · exact hn
  · rw [List.forall₂_map_right_iff, List.forall₂_same]
    intro n _
    split
    · exact .right .same
    · exact .same

/-! ## Joining a list of tables -/

/-- The outer join of a list of tables. -/
structure OuterJoin (tables : List (Table α)) (out : Table α) : Prop where
  valid : out.Valid
  /-- Exactly the times of the tables, compared as numbers. -/
  times : ∀ time, (∃ s ∈ out.times, eq s time = true) ↔
    ∃ t ∈ tables, ∃ s ∈ t.times, eq s time = true
  /-- The columns of the first table, then those of the second one, and so on. -/
  names : List.Forall₂ Renamed (tables.flatMap (·.names)) out.names
  /-- The cells of all tables at that time, table by table. -/
  cells : ∀ time, out.cellsOn time = tables.flatMap (·.cellsOn time)

section Tables

variable {tables rest : List (Table α)} {t left right joined out : Table α} {row : CellRow α}

theorem Table.eq_of_outerJoin (h : left.outerJoin right = .ok out) :
    out = ⟨joinNames left.names right.names,
      joinRows left.names.length right.names.length left.rows right.rows⟩ := by
  obtain ⟨_, -, h⟩ := bind_eq_ok.mp h
  split at h
  · cases h
  · exact (Except.ok.inj h).symm

theorem OuterJoin.singleton (ht : t.Valid) : OuterJoin [t] t where
  valid := ht
  times := by simp
  names := by simpa using List.forall₂_same.mpr fun n _ => Renamed.same
  cells := by simp

variable [LawfulScalar α]

/-- The join of two tables has the times of both and, at any time, the cells of both. -/
theorem Table.Valid.cellsOn_outerJoin (hl : left.Valid) (hr : right.Valid)
    (h : left.outerJoin right = .ok out) (time : α) :
    ((∃ s ∈ out.times, eq s time = true) ↔
      (∃ s ∈ left.times, eq s time = true) ∨ ∃ s ∈ right.times, eq s time = true) ∧
    out.cellsOn time = left.cellsOn time ++ right.cellsOn time := by
  obtain rfl := Table.eq_of_outerJoin h
  have hrow := rowOn_joinRows left.names.length right.names.length hl.ordered hr.ordered time
  constructor
  · have hsome := congrArg Option.isSome hrow
    simp only [Table.times, ← rowOn_isSome, ← Bool.or_eq_true]
    rw [Option.isSome_map] at hsome
    rw [hsome]
    split <;> simp [*]
  · rw [Table.cellsOn, cellsOr, hrow, Table.cellsOn, Table.cellsOn]
    split <;> rename_i hsome
    · rfl
    · simp only [Bool.or_eq_true, not_or, Option.not_isSome_iff_eq_none] at hsome
      simp [hsome.1, hsome.2, cellsOr, joinNames]

/-- One more table is joined to the tables joined before. -/
theorem OuterJoin.step (h : OuterJoin tables joined) (ht : t.Valid)
    (hout : joined.outerJoin t = .ok out) : OuterJoin (tables ++ [t]) out := by
  have hboth := h.valid.cellsOn_outerJoin ht hout
  constructor
  · exact h.valid.outerJoin ht hout
  · intro time
    rw [(hboth time).1, h.times time]
    simp [or_and_right, exists_or]
  · rw [Table.eq_of_outerJoin hout, List.flatMap_append, List.flatMap_singleton]
    exact renamed_joinNames h.names t.names
  · intro time
    rw [(hboth time).2, h.cells time, List.flatMap_append, List.flatMap_singleton]

/-- All tables of a list are joined, from left to right, to the tables joined before. -/
theorem OuterJoin.run (h : OuterJoin tables joined) (hrest : ∀ t ∈ rest, t.Valid)
    (hout : rest.foldlM Table.outerJoin joined = .ok out) : OuterJoin (tables ++ rest) out := by
  induction rest generalizing tables joined with
  | nil =>
    obtain rfl := Except.ok.inj hout
    rwa [List.append_nil]
  | cons t rest ih =>
    rw [List.forall_mem_cons] at hrest
    rw [List.foldlM_cons] at hout
    obtain ⟨next, hnext, hout⟩ := bind_eq_ok.mp hout
    have hall := ih (h.step hrest.1 hnext) hrest.2 hout
    rwa [List.append_assoc, List.singleton_append] at hall

/-- The cells of a table stand in its rows of the join after those of the tables before it. -/
theorem OuterJoin.cellAt_eq {before after : List (Table α)}
    (h : OuterJoin (before ++ t :: after) out) (hvalid : ∀ s ∈ before ++ t :: after, s.Valid)
    (hrow : row ∈ out.rows) {c : Nat} (hc : c < t.names.length) :
    cellAt row ((before.flatMap (·.names)).length + c)
      = ((rowOn t.rows row.time).map (cellAt · c)).getD .null := by
  have hlength : ∀ s ∈ before ++ t :: after, (s.cellsOn row.time).length = s.names.length := by
    intro s hs
    rw [Table.cellsOn, cellsOr]
    rcases hfound : rowOn s.rows row.time with - | found
    · simp
    · exact (hvalid s hs).width found (List.mem_of_find?_eq_some hfound)
  have hvalue : row.value = (before ++ t :: after).flatMap (·.cellsOn row.time) := by
    rw [← h.cells row.time, Table.cellsOn, rowOn_of_mem h.valid.ordered hrow]
    rfl
  have hbefore : (before.flatMap (·.cellsOn row.time)).length
      = (before.flatMap (·.names)).length := by
    rw [List.length_flatMap, List.length_flatMap]
    exact congrArg List.sum (List.map_congr_left fun s hs => hlength s (List.mem_append_left _ hs))
  rw [cellAt, hvalue, List.flatMap_append, List.getD_append_right _ _ _ _ (by omega), hbefore,
    Nat.add_sub_cancel_left, List.flatMap_cons,
    List.getD_append _ _ _ _ (by rw [hlength t (by simp)]; exact hc), Table.cellsOn, cellsOr]
  rcases rowOn t.rows row.time with - | found
  · simp [hc]
  · rfl

end Tables

/-- **Merging is the outer join of all tables.** The merged table has the times of all prepared
tables and their columns, in order. In a row of it, a column holds the cell that its own table has
at that time, or an empty one if that table has no row then. -/
theorem mergeAll_outerJoin {tables : List (Table Float)} (htables : ∀ t ∈ tables, t.Valid)
    {p : Preparation Float} {out : Table Float} (hout : mergeAll tables p = .ok out) :
    ∃ prepared, tables.mapM (·.prepare p) = .ok prepared ∧ OuterJoin prepared out ∧
      ∀ row ∈ out.rows, ∀ before t after, prepared = before ++ t :: after →
        ∀ c < t.names.length, cellAt row ((before.flatMap (·.names)).length + c)
          = ((rowOn t.rows row.time).map (cellAt · c)).getD .null := by
  obtain ⟨prepared, hprepared, hout⟩ := bind_eq_ok.mp hout
  have hvalid : ∀ t ∈ prepared, t.Valid := by
    intro t ht
    obtain ⟨source, hsource, hprepare⟩ := exists_of_mem_mapM hprepared ht
    exact (htables source hsource).prepare hprepare
  have hjoin : OuterJoin prepared out := by
    rcases prepared with - | ⟨first, rest⟩
    · cases hout
    · rw [List.forall_mem_cons] at hvalid
      exact (OuterJoin.singleton hvalid.1).run hvalid.2 hout
  refine ⟨prepared, hprepared, hjoin, ?_⟩
  rintro row hrow before t after rfl c hc
  exact hjoin.cellAt_eq hvalid hrow hc

/-- Three tables, two of which use the same name; zero and minus zero are one time. -/
theorem mergeAll_outerJoin_of_three_tables :
    let tables : List (Table Float) := [⟨["v"], [⟨0, [.int 1]⟩, ⟨2, [.int 2]⟩]⟩,
      ⟨["v", "w"], [⟨-0.0, [.int 3, .text "a"]⟩, ⟨1, [.int 4, .text "b"]⟩]⟩,
      ⟨["u"], [⟨1, [.num 5]⟩]⟩]
    let out : Table Float := ⟨["v_x", "v_y", "w", "u"],
      [⟨0, [.int 1, .int 3, .text "a", .null]⟩, ⟨1, [.null, .int 4, .text "b", .num 5]⟩,
        ⟨2, [.int 2, .null, .null, .null]⟩]⟩
    (∀ t ∈ tables, t.Valid) ∧ mergeAll tables ⟨[], []⟩ = .ok out ∧
      ∃ prepared, tables.mapM (·.prepare ⟨[], []⟩) = .ok prepared ∧ OuterJoin prepared out ∧
        ∀ row ∈ out.rows, ∀ before t after, prepared = before ++ t :: after →
          ∀ c < t.names.length, cellAt row ((before.flatMap (·.names)).length + c)
            = ((rowOn t.rows row.time).map (cellAt · c)).getD .null := by
  intro tables out
  have htables : ∀ t ∈ tables, t.Valid := by
    simp only [tables, List.forall_mem_cons]
    refine ⟨⟨checkIndex_eq_ok.mp rfl, by decide, by decide⟩,
      ⟨checkIndex_eq_ok.mp rfl, by decide, by decide⟩,
      ⟨checkIndex_eq_ok.mp rfl, by decide, by decide⟩, nofun⟩
  have hout : mergeAll tables ⟨[], []⟩ = .ok out := by decide +kernel
  exact ⟨htables, hout, mergeAll_outerJoin htables hout⟩

end StepSignal
