import StepSignal.Proofs.Cell
import StepSignal.Proofs.Squash

/-!
# What squashing leaves in a window

A window takes in its start and leaves out its stop, so every row of a squashed table begins inside
the window, before the end of the data, and lasts for some time.

One window does not fit this: a single time that falls within the data and misses all rows. The row
in progress is pulled forward to it before the window turns out to have no length, and stays, with
no duration. A window that begins where the data ends shrinks to such a time.

A window around all of the data leaves every row as it is, except that the last one is cut where it
ends anyway, and states its duration as a number from then on. So the table comes back unchanged if
that duration was stated as a number, and not if it was stated as an integer.
-/

namespace StepSignal

open Stretch

variable {i : Nat} {rows : List (Stamped Exact (List (Cell Exact)))}
  {row : Stamped Exact (List (Cell Exact))} {s : Stretch (List (Cell Exact))}
  {ss : List (Stretch (List (Cell Exact)))} {t : Table Exact} {column : String}
  {first last start stop point : Rat}

/-! ## Windows without length -/

/-- The rows of a tiling begin no earlier than it does. -/
theorem le_time_of_mem (h : rows.map (stretchAt i) = ss.map some) (ht : Tile ss first last)
    (hmem : row ∈ rows) : ∃ time, row.time = .num time ∧ first ≤ time := by
  induction ss generalizing rows first with
  | nil =>
    obtain rfl : rows = [] := by simpa using h
    cases hmem
  | cons s ss ih =>
    rcases rows with - | ⟨head, rows⟩
    · simp at h
    obtain ⟨hhead, hrows⟩ := List.cons.inj h
    obtain ⟨rfl, hlt, hrest⟩ := ht
    rcases List.mem_cons.mp hmem with rfl | hmem
    · exact ⟨s.opening, time_of_stretchAt hhead, le_rfl⟩
    · obtain ⟨time, htime, hle⟩ := ih hrows hrest hmem
      exact ⟨time, htime, hlt.le.trans hle⟩

/-- Nothing is left at the time of a row. -/
theorem squashRows_at_row (h : rows.map (stretchAt i) = ss.map some) (ht : Tile ss first last)
    (hlast : point ≤ last) (hmem : row ∈ rows) (hrow : row.time = .num point) :
    squashRows (lastingAt i) (lastingRows i rows) (.num point) (.num point) = [] := by
  induction ss generalizing rows first with
  | nil =>
    obtain rfl : rows = [] := by simpa using h
    cases hmem
  | cons s ss ih =>
    rcases rows with - | ⟨head, rows⟩
    · simp at h
    obtain ⟨hhead, hrows⟩ := List.cons.inj h
    obtain ⟨rfl, hs, hrest⟩ := ht
    rcases List.mem_cons.mp hmem with rfl | hmem
    · -- the row is the first one, and the only one in the window
      have hopen : s.opening = point := Exact.num.inj ((time_of_stretchAt hhead).symm.trans hrow)
      rw [squashRows_of_le hopen.ge le_rfl h ⟨rfl, hs, hrest⟩]
      rcases cutRows_cases hhead hs hopen.le hlast hrows hrest with ⟨hclose, -⟩ | ⟨-, -, hcut⟩
      · exact absurd (hs.trans_le hclose) hopen.not_lt
      · rw [hcut, if_pos hopen]
    · obtain ⟨time, htime, hle⟩ := le_time_of_mem hrows hrest hmem
      obtain rfl : time = point := Exact.num.inj (htime.symm.trans hrow)
      rcases rows with - | ⟨next, rows⟩
      · cases hmem
      rw [squashRows_skip hhead (head_time hrows hrest) hs hle]
      exact ih hrows hrest hmem

/-- The last row, when it is over, is pulled forward with no duration. -/
theorem squashRows_over (hrow : stretchAt i row = some s) (hs : s.opening < s.closing) :
    squashRows (lastingAt i) (lastingRows i [row]) (.num s.closing) (.num s.closing)
      = [⟨.num s.closing, lastingAt i (.num 0) row.value⟩] := by
  simp [squashRows, rowsBetween, openingPiece, rowInProgress, lastingRows, cutAt,
    time_of_stretchAt hrow, hs, hs.le]

/-- At a time that misses the rows, the row in progress is pulled forward with no duration. -/
theorem squashRows_between (h : rows.map (stretchAt i) = ss.map some) (ht : Tile ss first last)
    (hfirst : first < point) (hlast : point ≤ last) (hmiss : ∀ row ∈ rows, row.time ≠ .num point) :
    ∃ row ∈ rows, ∃ s, stretchAt i row = some s ∧ s.opening < point ∧ point ≤ s.closing ∧
      squashRows (lastingAt i) (lastingRows i rows) (.num point) (.num point)
        = [⟨.num point, lastingAt i (.num 0) row.value⟩] := by
  induction ss generalizing rows first with
  | nil => exact absurd (hfirst.trans_le hlast) (ht : first = last).not_lt
  | cons s ss ih =>
    rcases rows with - | ⟨row, rows⟩
    · simp at h
    obtain ⟨hrow, hrows⟩ := List.cons.inj h
    obtain ⟨rfl, hs, hrest⟩ := ht
    rcases lt_or_ge point s.closing with hin | hover
    · -- the first row is the one in progress
      refine ⟨row, by simp, s, hrow, hfirst, hin.le, ?_⟩
      rw [squashRows_open hrow hfirst hin hrows hrest hlast, cutRows_eq_nil hrows hrest hin,
        min_eq_right hin.le, sub_self]
    rcases rows with - | ⟨next, rows⟩
    · -- the time is the end of the last row
      obtain rfl : ss = [] := by simpa using hrows.symm
      have hend : s.closing = point := le_antisymm hover (hlast.trans_eq hrest.symm)
      refine ⟨row, by simp, s, hrow, hfirst, hend.ge, ?_⟩
      rw [← hend]
      exact squashRows_over hrow hs
    · have hnext := head_time hrows hrest
      have hlt : s.closing < point := lt_of_le_of_ne hover fun heq =>
        hmiss next (by simp) (heq ▸ hnext)
      obtain ⟨row', hmem, s', hrow', hopen, hclose, hsquash⟩ :=
        ih hrows hrest hlt fun r hr => hmiss r (List.mem_cons_of_mem _ hr)
      refine ⟨row', List.mem_cons_of_mem _ hmem, s', hrow', hopen, hclose, ?_⟩
      rw [squashRows_skip hrow hnext hs hover]
      exact hsquash

/-- A window that ends where it starts, once its stop is moved back to the end of the data, within
the data and off all rows. -/
structure PointBetween (rows : List (Stamped Exact (List (Cell Exact))))
    (first last start stop : Rat) : Prop where
  point : min stop last = start
  begun : first < start
  missed : ∀ row ∈ rows, row.time ≠ .num start

/-- Any other window without length has nothing in it. -/
theorem squashRows_point_eq_nil (hne : rows ≠ []) (h : Tiling i rows ss first last)
    (hpoint : min stop last = start) (hnot : ¬ PointBetween rows first last start stop) :
    squashRows (lastingAt i) (lastingRows i rows) (.num start) (.num start) = [] := by
  have hlast : start ≤ last := hpoint ▸ min_le_right stop last
  by_cases hmiss : ∀ row ∈ rows, row.time ≠ .num start
  · have hfirst : start ≤ first := not_lt.mp fun hlt => hnot ⟨hpoint, hlt, hmiss⟩
    obtain ⟨row, rows, rfl⟩ := List.exists_cons_of_ne_nil hne
    -- the first row sits at the beginning of the data, so the window is before it
    have hlt : start < first := lt_of_le_of_ne hfirst fun heq =>
      hmiss row (by simp) (heq ▸ head_time h.reads h.tile)
    rw [squashRows_of_le hlt.le le_rfl h.reads h.tile, cutRows_eq_nil h.reads h.tile hlt]
  · push Not at hmiss
    obtain ⟨row, hmem, hrow⟩ := hmiss
    exact squashRows_at_row h.reads h.tile hlast hmem hrow

/-! ## The times inside a window -/

/-- What a row of a clipped tiling says. -/
theorem bounds_of_stretchAt_clip
    (h : rows.map (stretchAt i) = (ss.filterMap (clip start stop)).map some) (hmem : row ∈ rows) :
    ∃ time d, row.time = .num time ∧ (cellAt row i).number? = some (.num d) ∧ 0 < d ∧
      start ≤ time ∧ time < stop := by
  have hread : stretchAt i row ∈ (ss.filterMap (clip start stop)).map some :=
    h ▸ List.mem_map_of_mem hmem
  obtain ⟨piece, hpiece, hrow⟩ := List.mem_map.mp hread
  obtain ⟨s, -, hclip⟩ := List.mem_filterMap.mp hpiece
  obtain ⟨hstart, hlt, hstop⟩ := bounds_of_clip hclip
  exact ⟨piece.opening, piece.closing - piece.opening, time_of_stretchAt hrow.symm,
    duration_of_stretchAt hrow.symm, sub_pos.mpr hlt, hstart, hlt.trans_le hstop⟩

/-- **A squashed table is half open.** Let a table without gaps and with positive durations reach
from `first` to `last`, over exact scalars. Every row of what is squashed to a window has a positive
duration and begins inside the window and before the end of the data, so that a single time and a
window that begins after the data have no row. The only exception is a window without length within
the data that misses all rows: it has one row, the one in progress, with no duration. -/
theorem Table.squash_half_open (hcolumn : t.position? column = some i) (hne : t.rows ≠ [])
    (h : Tiling i t.rows ss first last) (start stop : Rat) :
    ∃ out, t.squash (.num start) (.num stop) column = .ok out ∧ out.names = t.names ∧
      (¬ PointBetween t.rows first last start stop →
        (∀ row ∈ out.rows, ∃ time d, row.time = .num time ∧
          (cellAt row i).number? = some (.num d) ∧ 0 < d ∧ start ≤ time ∧ time < stop ∧
          time < last) ∧
        (stop ≤ start ∨ last ≤ start → out.rows = [])) ∧
      (PointBetween t.rows first last start stop →
        ∃ row ∈ t.rows, ∃ s, stretchAt i row = some s ∧ s.opening < start ∧ start ≤ s.closing ∧
          out.rows = [⟨.num start, lastingAt i (.num 0) row.value⟩]) := by
  rcases lt_trichotomy start (min stop last) with hlt | hpoint | hgt
  · obtain ⟨out, hout, hnames, hrows⟩ := Table.exists_squash hcolumn h hlt
    refine ⟨out, hout, hnames, ?_, fun hp => absurd hp.point hlt.ne'⟩
    intro _
    constructor
    · intro row hmem
      obtain ⟨time, d, htime, hd, hpos, hstart, hstop⟩ := bounds_of_stretchAt_clip hrows hmem
      exact ⟨time, d, htime, hd, hpos, hstart, lt_min_iff.mp hstop⟩
    · -- the window has a length and begins before the end of the data
      intro hend
      exact absurd (min_le_iff.mpr hend) hlt.not_ge
  · refine ⟨_, Table.squash_eq hcolumn hne h start stop, rfl, ?_, ?_⟩
    · intro hnot
      have hnil := squashRows_point_eq_nil hne h hpoint.symm hnot
      simp only [← hpoint, lt_irrefl, if_false, hnil]
      exact ⟨by simp, fun _ => trivial⟩
    · intro hp
      obtain ⟨row, hmem, s, hrow, hopen, hclose, hsquash⟩ :=
        squashRows_between h.reads h.tile hp.begun (hpoint.trans_le (min_le_right _ _)) hp.missed
      refine ⟨row, hmem, s, hrow, hopen, hclose, ?_⟩
      simp only [← hpoint, lt_irrefl, if_false, hsquash]
  · -- the window is reversed, or begins after the data
    refine ⟨_, Table.squash_eq hcolumn hne h start stop, rfl, ?_, fun hp => absurd hp.point hgt.ne⟩
    rw [if_pos hgt]
    simp

/-- Two rows that last from 0 to 3, squashed to the times from 1 to 2, where a row begins. -/
theorem Table.squash_half_open_of_two_rows :
    let t : Table Exact := ⟨["delta"], [⟨.num 0, [.int 2]⟩, ⟨.num 2, [.int 1]⟩]⟩
    let ss : List (Stretch (List (Cell Exact))) := [⟨0, 2, []⟩, ⟨2, 3, []⟩]
    t.position? "delta" = some 0 ∧ t.rows ≠ [] ∧ Tiling 0 t.rows ss 0 3 ∧
      ∃ out, t.squash (.num 1) (.num 2) "delta" = .ok out ∧
        ∀ row ∈ out.rows, ∃ time d, row.time = .num time ∧
          (cellAt row 0).number? = some (.num d) ∧ 0 < d ∧ 1 ≤ time ∧ time < 2 ∧ time < 3 := by
  intro t ss
  have hcolumn : t.position? "delta" = some 0 := by decide
  have hne : t.rows ≠ [] := List.cons_ne_nil _ _
  have hone : (1 : Int64).toInt = 1 := rfl
  have htwo : (2 : Int64).toInt = 2 := rfl
  have htiling : Tiling 0 t.rows ss 0 3 := by
    constructor
    · norm_num [t, ss, stretchAt, cellAt, Cell.number?, Scalar.ofInt, hone, htwo]
    · norm_num [ss, Tile]
  have hnot : ¬ PointBetween t.rows 0 3 1 2 := fun hp => absurd hp.point (by norm_num)
  obtain ⟨out, hout, -, hwindow, -⟩ := Table.squash_half_open hcolumn hne htiling 1 2
  exact ⟨hcolumn, hne, htiling, out, hout, (hwindow hnot).1⟩

/-- One row that lasts from 0 to 2. Squashed to the single time 1, or to a window that begins where
the row ends, it leaves a row with no duration. -/
theorem Table.squash_point_leaves_row :
    let t : Table Exact := ⟨["delta"], [⟨.num 0, [.num (.num 2)]⟩]⟩
    Tiling 0 t.rows [⟨0, 2, []⟩] 0 2 ∧
      t.squash (.num 1) (.num 1) "delta" = .ok ⟨["delta"], [⟨.num 1, [.num (.num 0)]⟩]⟩ ∧
      t.squash (.num 2) (.num 3) "delta" = .ok ⟨["delta"], [⟨.num 2, [.num (.num 0)]⟩]⟩ := by
  intro t
  have htiling : Tiling 0 t.rows [⟨0, 2, []⟩] 0 2 := by
    constructor
    · norm_num [t, stretchAt, cellAt, Cell.number?]
    · norm_num [Tile]
  refine ⟨htiling, ?_, ?_⟩
  · decide +kernel
  · decide +kernel

/-! ## Equal tables -/

/-- Lists hold equal numbers if they are equal and nothing is missing. -/
theorem Scalar.eqAll_iff_eq (xs ys : List Exact) :
    Scalar.eqAll xs ys = true ↔ xs = ys ∧ .missing ∉ xs := by
  induction xs generalizing ys with
  | nil => cases ys <;> simp [Scalar.eqAll]
  | cons x xs ih =>
    rcases ys with - | ⟨y, ys⟩
    · simp [Scalar.eqAll]
    rw [Scalar.eqAll, Bool.and_eq_true, ih]
    rcases x with - | p
    · rcases y with - | q <;> simp [Scalar.eq, Exact.holds]
    · rcases y with - | q
      · simp [Scalar.eq, Exact.holds]
      · simp [and_assoc]

/-- Lists of stamped values are equal if they have the same times and the same values. -/
theorem Stamped.eq_iff_times {α β : Type} (rows others : List (Stamped α β)) :
    rows = others ↔
      times rows = times others ∧ ∀ p ∈ rows.zip others, p.1.value = p.2.value := by
  induction rows generalizing others with
  | nil => cases others <;> simp [times]
  | cons row rows ih =>
    rcases others with - | ⟨other, others⟩
    · simp [times]
    have hhead : row = other ↔ row.time = other.time ∧ row.value = other.value := by
      cases row
      cases other
      simp
    have hrest := ih others
    unfold times at hrest ⊢
    rw [List.cons.injEq, hhead, hrest, List.map_cons, List.map_cons, List.cons.injEq,
      List.zip_cons_cons, List.forall_mem_cons, and_and_and_comm]

/-- Over exact scalars, tables are the same only if they are equal. -/
theorem Table.same_iff_eq (hnum : .missing ∉ t.times) (out : Table Exact) :
    t.same out = true ↔ t = out := by
  have hrows := Stamped.eq_iff_times t.rows out.rows
  unfold Table.same
  rw [Bool.and_eq_true, Bool.and_eq_true, Scalar.eqAll_iff_eq, beq_iff_eq, List.all_eq_true]
  simp only [Cell.sameAll_iff_eq]
  constructor
  · rintro ⟨⟨⟨htimes, -⟩, hnames⟩, hcells⟩
    exact congrArg₂ Table.mk hnames (hrows.mpr ⟨htimes, hcells⟩)
  · rintro rfl
    exact ⟨⟨⟨rfl, hnum⟩, rfl⟩, (hrows.mp rfl).2⟩

/-! ## Windows around the data -/

/-- The last row is in effect up to the end of a tiling, so that a cut there only restates its
duration. All other rows are carried through. -/
theorem cutRows_whole (hne : rows ≠ []) (h : rows.map (stretchAt i) = ss.map some)
    (ht : Tile ss first last) :
    ∃ before row d, rows = before ++ [row] ∧ (cellAt row i).number? = some (.num d) ∧
      cutRows i last rows = before ++ [⟨row.time, lastingAt i (.num d) row.value⟩] := by
  induction ss generalizing rows first with
  | nil => exact absurd (by simpa using h) hne
  | cons s ss ih =>
    rcases rows with - | ⟨row, rows⟩
    · exact absurd rfl hne
    obtain ⟨hrow, hrows⟩ := List.cons.inj h
    obtain ⟨rfl, hs, hrest⟩ := ht
    rcases rows with - | ⟨next, rows⟩
    · -- the row is the last one
      obtain rfl : ss = [] := by simpa using hrows.symm
      obtain rfl : s.closing = last := hrest
      refine ⟨[], row, s.closing - s.opening, rfl, duration_of_stretchAt hrow, ?_⟩
      rw [cutRows_last hrow hs.le rfl le_rfl, if_neg hs.ne, time_of_stretchAt hrow]
      rfl
    · obtain ⟨before, row', d, heq, hd, hcut⟩ := ih (List.cons_ne_nil _ _) hrows hrest
      refine ⟨row :: before, row', d, by rw [heq, List.cons_append], hd, ?_⟩
      rw [cutRows_carry hrow (head_time hrows hrest) hs hrest.le, hcut, List.cons_append]

/-- A duration that a cell states is restated by the same cell only if it is a number already. -/
theorem lastingAt_eq_self {d : Exact} (hd : (cellAt row i).number? = some d) :
    lastingAt i d row.value = row.value ↔ cellAt row i = .num d := by
  have hi := lt_length_of_number? hd
  have hcell : cellAt row i = row.value[i] := by
    rw [cellAt, List.getD_eq_getElem?_getD, List.getElem?_eq_getElem hi, Option.getD_some]
  rw [hcell]
  constructor
  · intro heq
    have hget := congrArg (·[i]?) heq
    simpa [lastingAt, hi] using hget.symm
  · intro heq
    rw [lastingAt, ← heq, List.set_getElem_self]

/-- **Squashing to all of the data restates the last duration.** A table without gaps and with
positive durations, over exact scalars, comes back from a window around all of it as it is, but for
the duration of its last row, which is stated as a number. So the result is the same table if that
duration was a number before, and is not if it was an integer. -/
theorem Table.squash_whole (hcolumn : t.position? column = some i) (hne : t.rows ≠ [])
    (h : Tiling i t.rows ss first last) (hstart : start ≤ first) (hstop : last ≤ stop) :
    ∃ before row d out, t.rows = before ++ [row] ∧ (cellAt row i).number? = some (.num d) ∧
      t.squash (.num start) (.num stop) column = .ok out ∧
      out = { t with rows := before ++ [⟨row.time, lastingAt i (.num d) row.value⟩] } ∧
      (t.same out = true ↔ cellAt row i = .num (.num d)) := by
  obtain ⟨before, row, d, hrows, hd, hcut⟩ := cutRows_whole hne h.reads h.tile
  have hle : start ≤ last := hstart.trans h.tile.le
  have hsquash := Table.squash_eq hcolumn hne h start stop
  rw [min_eq_right hstop, if_neg hle.not_gt, squashRows_of_le hstart hle h.reads h.tile, hcut]
    at hsquash
  refine ⟨before, row, d, _, hrows, hd, hsquash, rfl, ?_⟩
  have hnum : .missing ∉ t.times := fun hmem => by
    obtain ⟨row, hrow, hmissing⟩ := List.mem_map.mp hmem
    obtain ⟨time, htime, -⟩ := le_time_of_mem h.reads h.tile hrow
    rw [htime] at hmissing
    cases hmissing
  rw [Table.same_iff_eq hnum, ← lastingAt_eq_self hd]
  constructor
  · intro heq
    have hlast : before ++ [row] = before ++ [⟨row.time, lastingAt i (.num d) row.value⟩] :=
      hrows ▸ congrArg Table.rows heq
    have hrow := List.singleton_inj.mp (List.append_cancel_left hlast)
    exact (congrArg Stamped.value hrow).symm
  · intro heq
    rw [heq, ← hrows]

/-- Two rows that last from 0 to 3, the last one with a number for its duration, come back from the
window from 0 to 9. -/
theorem Table.squash_whole_of_two_rows :
    let t : Table Exact := ⟨["delta"], [⟨.num 0, [.int 2]⟩, ⟨.num 2, [.num (.num 1)]⟩]⟩
    let ss : List (Stretch (List (Cell Exact))) := [⟨0, 2, []⟩, ⟨2, 3, []⟩]
    t.position? "delta" = some 0 ∧ t.rows ≠ [] ∧ Tiling 0 t.rows ss 0 3 ∧
      ∃ before row d out, t.rows = before ++ [row] ∧ (cellAt row 0).number? = some (.num d) ∧
        t.squash (.num 0) (.num 9) "delta" = .ok out ∧
        out = { t with rows := before ++ [⟨row.time, lastingAt 0 (.num d) row.value⟩] } ∧
        (t.same out = true ↔ cellAt row 0 = .num (.num d)) := by
  intro t ss
  have hcolumn : t.position? "delta" = some 0 := by decide
  have hne : t.rows ≠ [] := List.cons_ne_nil _ _
  have htwo : (2 : Int64).toInt = 2 := rfl
  have htiling : Tiling 0 t.rows ss 0 3 := by
    constructor
    · norm_num [t, ss, stretchAt, cellAt, Cell.number?, Scalar.ofInt, htwo]
    · norm_num [ss, Tile]
  exact ⟨hcolumn, hne, htiling,
    Table.squash_whole hcolumn hne htiling (by norm_num) (by norm_num)⟩

/-- Two rows with integers for their durations, from 0 to 4. The window around them restates the
last duration, so another table comes back. -/
theorem Table.squash_whole_restates_integer :
    let t : Table Exact := ⟨["delta"], [⟨.num 0, [.int 2]⟩, ⟨.num 2, [.int 2]⟩]⟩
    let out : Table Exact := ⟨["delta"], [⟨.num 0, [.int 2]⟩, ⟨.num 2, [.num (.num 2)]⟩]⟩
    Tiling 0 t.rows [⟨0, 2, []⟩, ⟨2, 4, []⟩] 0 4 ∧
      t.squash (.num 0) (.num 4) "delta" = .ok out ∧ t.same out = false := by
  intro t out
  have htwo : (2 : Int64).toInt = 2 := rfl
  have htiling : Tiling 0 t.rows [⟨0, 2, []⟩, ⟨2, 4, []⟩] 0 4 := by
    constructor
    · norm_num [t, stretchAt, cellAt, Cell.number?, Scalar.ofInt, htwo]
    · norm_num [Tile]
  refine ⟨htiling, ?_, ?_⟩
  · decide +kernel
  · decide +kernel

end StepSignal
