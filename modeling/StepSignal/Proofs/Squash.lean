import StepSignal.Proofs.Columns
import StepSignal.Proofs.Stretch

/-!
# What squashing keeps

Over exact scalars, the rows of a table without gaps are a tiling by stretches. Squashing to
`[start, stop)` is then nothing but clipping:

    stretches (squash rows) = (stretches rows).filterMap (clip start stop)

Everything that is said about the time that a squashed table accounts for follows from this one
equation and the facts on tilings.
-/

namespace StepSignal

open Stretch

/-- The stretch of time on which a row is in effect when its duration is the cell at position `i`,
with the other cells of the row. -/
def stretchAt (i : Nat) (row : Stamped Exact (List (Cell Exact))) :
    Option (Stretch (List (Cell Exact))) :=
  match row.time, (cellAt row i).number? with
  | .num t, some (.num d) => some ⟨t, t + d, row.value.eraseIdx i⟩
  | _, _ => none

/-- The duration that a row states at position `i`. -/
def durationAt (i : Nat) (row : Stamped Exact (List (Cell Exact))) : Exact :=
  (cellAt row i).number?.getD .missing

/-- Puts a duration in place of the cell at position `i`. -/
def lastingAt (i : Nat) (d : Exact) (cells : List (Cell Exact)) : List (Cell Exact) :=
  cells.set i (.num d)

/-- Rows with the durations that they state at position `i`. -/
def lastingRows (i : Nat) (rows : List (Stamped Exact (List (Cell Exact)))) :
    List (Lasting Exact (List (Cell Exact))) := rows.map fun row => (row, durationAt i row)

section Rows

variable {i : Nat} {row next : Stamped Exact (List (Cell Exact))}
  {rows : List (Stamped Exact (List (Cell Exact)))} {s : Stretch (List (Cell Exact))}
  {ss : List (Stretch (List (Cell Exact)))} {start stop first last : Rat}

/-! ## Reading rows as stretches -/

theorem time_of_stretchAt (h : stretchAt i row = some s) : row.time = .num s.opening := by
  unfold stretchAt at h
  split at h <;> cases h
  assumption

theorem duration_of_stretchAt (h : stretchAt i row = some s) :
    (cellAt row i).number? = some (.num (s.closing - s.opening)) := by
  unfold stretchAt at h
  split at h <;> cases h
  rename_i hd
  rw [hd, add_sub_cancel_left]

theorem durationAt_of_stretchAt (h : stretchAt i row = some s) :
    durationAt i row = .num (s.closing - s.opening) := by
  rw [durationAt, duration_of_stretchAt h, Option.getD_some]

theorem value_of_stretchAt (h : stretchAt i row = some s) : s.value = row.value.eraseIdx i := by
  unfold stretchAt at h
  split at h <;> cases h
  rfl

/-- A row that states a duration at position `i` has a cell there. -/
theorem lt_length_of_number? {d : Exact} (h : (cellAt row i).number? = some d) :
    i < row.value.length := by
  -- beyond its cells a row reads as null, which states no duration
  by_contra hlt
  have hnull : cellAt row i = .null := by
    rw [cellAt, List.getD_eq_getElem?_getD, List.getElem?_eq_none (not_lt.mp hlt), Option.getD_none]
  rw [hnull] at h
  cases h

theorem lt_length_of_stretchAt (h : stretchAt i row = some s) : i < row.value.length :=
  lt_length_of_number? (duration_of_stretchAt h)

/-- A row that is given a new time and a new duration is in effect on the stretch that they say. -/
theorem stretchAt_lastingAt (h : stretchAt i row = some s) (t d : Rat) :
    stretchAt i ⟨.num t, lastingAt i (.num d) row.value⟩ = some ⟨t, t + d, s.value⟩ := by
  have hi := lt_length_of_stretchAt h
  simp [stretchAt, lastingAt, cellAt, List.getD_eq_getElem?_getD, hi, Cell.number?,
    value_of_stretchAt h, List.eraseIdx_set_eq]

/-- The first row of a tiling opens it. -/
theorem head_time (h : (next :: rows).map (stretchAt i) = ss.map some) (ht : Tile ss first last) :
    next.time = .num first := by
  rcases ss with - | ⟨s, ss⟩
  · simp at h
  rw [time_of_stretchAt (List.cons.inj h).1, ht.1]

/-! ## The rows inside the window -/

/-- The rows of a tiling from its beginning up to `stop`, with the last one cut. -/
def cutRows (i : Nat) (stop : Rat) (rows : List (Stamped Exact (List (Cell Exact)))) :
    List (Stamped Exact (List (Cell Exact))) :=
  cutAt (lastingAt i) (.num stop)
    ((lastingRows i rows).takeWhile fun row => Scalar.le row.1.time (.num stop))

/-- No row of a tiling begins before the tiling does. -/
theorem takeWhile_lastingRows (h : rows.map (stretchAt i) = ss.map some) (ht : Tile ss first last)
    (hstop : stop < first) :
    (lastingRows i rows).takeWhile (fun row => Scalar.le row.1.time (.num stop)) = [] := by
  rcases rows with - | ⟨next, rows⟩
  · rfl
  simp [lastingRows, head_time h ht, not_le.mpr hstop]

theorem cutRows_eq_nil (h : rows.map (stretchAt i) = ss.map some) (ht : Tile ss first last)
    (hstop : stop < first) : cutRows i stop rows = [] := by
  rw [cutRows, takeWhile_lastingRows h ht hstop, cutAt]

/-- A row that is over at `stop` or before it is carried through when another one follows. -/
theorem cutRows_carry (hrow : stretchAt i row = some s) (hnext : next.time = .num s.closing)
    (hs : s.opening < s.closing) (hstop : s.closing ≤ stop) :
    cutRows i stop (row :: next :: rows) = row :: cutRows i stop (next :: rows) := by
  have hle : s.opening ≤ stop := hs.le.trans hstop
  simp [cutRows, lastingRows, time_of_stretchAt hrow, hnext, hle, hstop, cutAt]

/-- The last row that begins by `stop` is cut there, and left out when it begins at `stop`. -/
theorem cutRows_last (hrow : stretchAt i row = some s) (hs : s.opening ≤ stop)
    (hrest : (lastingRows i rows).takeWhile (fun row => Scalar.le row.1.time (.num stop)) = [])
    (hstop : stop ≤ s.closing) :
    cutRows i stop (row :: rows)
      = if s.opening = stop then []
        else [⟨.num s.opening, lastingAt i (.num (stop - s.opening)) row.value⟩] := by
  -- the new duration is no longer than the one that the row states
  have hmin : min (stop - s.opening) (s.closing - s.opening) = stop - s.opening :=
    min_eq_left (sub_le_sub_right hstop _)
  unfold cutRows
  rw [lastingRows, List.map_cons, List.takeWhile_cons]
  rw [lastingRows] at hrest
  simp [time_of_stretchAt hrow, hs, hrest, cutAt, durationAt_of_stretchAt hrow, hmin]

/-- The first row that begins by `stop` is carried through, or no other row begins by then. -/
theorem cutRows_cases (hrow : stretchAt i row = some s) (hs : s.opening < s.closing)
    (hopen : s.opening ≤ stop) (hstop : stop ≤ last) (h : rows.map (stretchAt i) = ss.map some)
    (ht : Tile ss s.closing last) :
    (s.closing ≤ stop ∧ cutRows i stop (row :: rows) = row :: cutRows i stop rows) ∨
      (stop ≤ s.closing ∧ cutRows i stop rows = [] ∧ cutRows i stop (row :: rows)
        = if s.opening = stop then []
          else [⟨.num s.opening, lastingAt i (.num (stop - s.opening)) row.value⟩]) := by
  rcases rows with - | ⟨next, rows⟩
  · -- the row is the last one
    obtain rfl : ss = [] := by simpa using h.symm
    have hclose : stop ≤ s.closing := hstop.trans_eq ht.symm
    exact .inr ⟨hclose, rfl, cutRows_last hrow hopen rfl hclose⟩
  rcases le_or_gt s.closing stop with hclose | hclose
  · exact .inl ⟨hclose, cutRows_carry hrow (head_time h ht) hs hclose⟩
  · have htake := takeWhile_lastingRows h ht hclose
    exact .inr ⟨hclose.le, cutRows_eq_nil h ht hclose, cutRows_last hrow hopen htake hclose.le⟩

/-- The rows of a tiling up to `stop` are its stretches clipped to a window that opens before all of
them. -/
theorem stretchAt_cutRows (hstart : start ≤ first) (hfirst : first ≤ stop) (hstop : stop ≤ last)
    (h : rows.map (stretchAt i) = ss.map some) (ht : Tile ss first last) :
    (cutRows i stop rows).map (stretchAt i) = (ss.filterMap (clip start stop)).map some := by
  induction ss generalizing rows first with
  | nil =>
    obtain rfl : rows = [] := by simpa using h
    rfl
  | cons s ss ih =>
    rcases rows with - | ⟨row, rows⟩
    · simp at h
    obtain ⟨hrow, hrows⟩ := List.cons.inj h
    obtain ⟨rfl, hlt, hrest⟩ := ht
    rcases cutRows_cases hrow hlt hfirst hstop hrows hrest with ⟨hclose, hcut⟩ | ⟨hclose, -, hcut⟩
    · rw [hcut, List.map_cons, hrow, ih (hstart.trans hlt.le) hclose hrows hrest,
        List.filterMap_cons_some (clip_eq_self hlt hstart hclose), List.map_cons]
    · rw [hcut]
      split <;> rename_i hopen
      · rw [List.filterMap_cons_none, hrest.clip_eq_nil hclose]
        · rfl
        · exact clip_eq_none (by rw [hopen]; exact (min_le_right _ _).trans (le_max_left _ _))
      · have hin : s.opening < stop := lt_of_le_of_ne hfirst hopen
        have hclip : clip start stop s = some ⟨s.opening, stop, s.value⟩ := by
          rw [clip, max_eq_left hstart, min_eq_right hclose, if_pos hin]
        rw [List.filterMap_cons_some hclip, hrest.clip_eq_nil hclose, List.map_singleton,
          stretchAt_lastingAt hrow, add_sub_cancel]
        rfl

/-! ## The row in progress -/

/-- A window that opens with the tiling or before it has no row in progress to pull forward. -/
theorem squashRows_of_le (hstart : start ≤ first) (hle : start ≤ stop)
    (h : rows.map (stretchAt i) = ss.map some) (ht : Tile ss first last) :
    squashRows (lastingAt i) (lastingRows i rows) (.num start) (.num stop)
      = cutRows i stop rows := by
  rcases rows with - | ⟨row, rows⟩
  · rfl
  have htime := head_time h ht
  have hinside : rowsBetween (lastingRows i (row :: rows)) (.num start) (.num stop)
      = (lastingRows i (row :: rows)).takeWhile fun row => Scalar.le row.1.time (.num stop) := by
    simp [rowsBetween, lastingRows, htime, not_lt.mpr hstart]
  have hopening : openingPiece (lastingAt i) (lastingRows i (row :: rows))
      (rowsBetween (lastingRows i (row :: rows)) (.num start) (.num stop))
      (.num start) (.num stop) = [] := by
    rw [hinside]
    -- no row comes before the start, or a row sits at it
    rcases hstart.lt_or_eq with hlt | rfl
    · simp [openingPiece, rowInProgress, lastingRows, htime, not_le.mpr hlt]
    · simp [openingPiece, rowInProgress, lastingRows, htime, hle, List.getLast?_cons]
  rw [squashRows, hopening, hinside, List.nil_append, cutRows]

/-- A row that is over when the window opens plays no part in it. -/
theorem squashRows_skip (hrow : stretchAt i row = some s) (hnext : next.time = .num s.closing)
    (hs : s.opening < s.closing) (hstart : s.closing ≤ start) :
    squashRows (lastingAt i) (lastingRows i (row :: next :: rows)) (.num start) (.num stop)
      = squashRows (lastingAt i) (lastingRows i (next :: rows)) (.num start) (.num stop) := by
  have hopen : s.opening < start := hs.trans_le hstart
  have hinside : rowsBetween (lastingRows i (row :: next :: rows)) (.num start) (.num stop)
      = rowsBetween (lastingRows i (next :: rows)) (.num start) (.num stop) := by
    simp [rowsBetween, lastingRows, time_of_stretchAt hrow, hopen]
  -- the next row begins by the start as well, so it takes the place of this one
  have hprogress : rowInProgress (lastingRows i (row :: next :: rows)) (.num start)
      = rowInProgress (lastingRows i (next :: rows)) (.num start) := by
    simp [rowInProgress, lastingRows, time_of_stretchAt hrow, hnext, hopen.le, hstart]
  rw [squashRows, squashRows, hinside, openingPiece, openingPiece, hprogress]

/-- The row in progress when the window opens is pulled forward, and lasts until the next row or
until the window closes. -/
theorem squashRows_open (hrow : stretchAt i row = some s) (hopen : s.opening < start)
    (hclose : start < s.closing) (h : rows.map (stretchAt i) = ss.map some)
    (ht : Tile ss s.closing last) (hstop : stop ≤ last) :
    squashRows (lastingAt i) (lastingRows i (row :: rows)) (.num start) (.num stop)
      = ⟨.num start, lastingAt i (.num (min s.closing stop - start)) row.value⟩
        :: cutRows i stop rows := by
  have hinside : rowsBetween (lastingRows i (row :: rows)) (.num start) (.num stop)
      = (lastingRows i rows).takeWhile fun row => Scalar.le row.1.time (.num stop) := by
    rcases rows with - | ⟨next, rows⟩
    · simp [rowsBetween, lastingRows, time_of_stretchAt hrow, hopen]
    · simp [rowsBetween, lastingRows, time_of_stretchAt hrow, hopen, head_time h ht,
        not_lt.mpr hclose.le]
  have hprogress : rowInProgress (lastingRows i (row :: rows)) (.num start)
      = some (row, durationAt i row) := by
    rcases rows with - | ⟨next, rows⟩
    · simp [rowInProgress, lastingRows, time_of_stretchAt hrow, hopen.le]
    · simp [rowInProgress, lastingRows, time_of_stretchAt hrow, hopen.le, head_time h ht,
        not_le.mpr hclose]
  rw [squashRows, openingPiece, hprogress, hinside]
  rcases rows with - | ⟨next, rows⟩
  -- without another row the tiling ends here, and the window does not reach beyond it
  · obtain rfl : ss = [] := by simpa using h.symm
    have hmin : min s.closing stop = stop := min_eq_right (hstop.trans_eq ht.symm)
    simp [lastingRows, cutRows, hmin]
  · rcases le_or_gt s.closing stop with hin | hout
    · simp [lastingRows, cutRows, head_time h ht, hin, hclose.ne']
    · simp [lastingRows, cutRows, head_time h ht, not_le.mpr hout, min_eq_right hout.le]

/-- Squashing clips the stretches of a tiling to the window. -/
theorem stretchAt_squashRows (hlt : start < stop) (hstop : stop ≤ last)
    (h : rows.map (stretchAt i) = ss.map some) (ht : Tile ss first last) :
    (squashRows (lastingAt i) (lastingRows i rows) (.num start) (.num stop)).map (stretchAt i)
      = (ss.filterMap (clip start stop)).map some := by
  induction ss generalizing rows first with
  | nil =>
    obtain rfl : rows = [] := by simpa using h
    rfl
  | cons s ss ih =>
    rcases le_or_gt start first with hbefore | hafter
    -- the window opens with the rows or before them, so nothing is pulled forward
    · rw [squashRows_of_le hbefore hlt.le h ht]
      rcases le_or_gt first stop with hfirst | hgt
      · exact stretchAt_cutRows hbefore hfirst hstop h ht
      · rw [cutRows_eq_nil h ht hgt, ht.clip_eq_nil hgt.le]
        rfl
    rcases rows with - | ⟨row, rows⟩
    · simp at h
    obtain ⟨hrow, hrows⟩ := List.cons.inj h
    obtain ⟨rfl, hs, hrest⟩ := ht
    -- the window opens after the beginning of the first row: within it or when it is over
    rcases lt_or_ge start s.closing with hopen | hover
    · have hclip : clip start stop s = some ⟨start, min s.closing stop, s.value⟩ := by
        rw [clip, max_eq_right hafter.le, if_pos (lt_min hopen hlt)]
      rw [squashRows_open hrow hafter hopen hrows hrest hstop, List.map_cons,
        stretchAt_lastingAt hrow, add_sub_cancel, List.filterMap_cons_some hclip, List.map_cons]
      congr 1
      rcases le_or_gt s.closing stop with hin | hout
      · exact stretchAt_cutRows hopen.le hin hstop hrows hrest
      · rw [cutRows_eq_nil hrows hrest hout, hrest.clip_eq_nil hout.le]
        rfl
    · -- the row is over, so another one follows it
      rcases rows with - | ⟨next, rows⟩
      · obtain rfl : ss = [] := by simpa using hrows.symm
        exact absurd (hstop.trans_eq hrest.symm) (not_le.mpr (hover.trans_lt hlt))
      have hclip : clip start stop s = none :=
        clip_eq_none ((min_le_left _ _).trans (hover.trans (le_max_right _ _)))
      rw [squashRows_skip hrow (head_time hrows hrest) hs hover, ih hrows hrest,
        List.filterMap_cons_none hclip]

end Rows

/-! ## Tables -/

/-- Rows whose stretches are `ss` and tile the time from `first` to `last`: the rows of a table
without gaps and with positive durations, from its first time to the end of its last row. -/
structure Tiling (i : Nat) (rows : List (Stamped Exact (List (Cell Exact))))
    (ss : List (Stretch (List (Cell Exact)))) (first last : Rat) : Prop where
  reads : rows.map (stretchAt i) = ss.map some
  tile : Tile ss first last

namespace Tiling

variable {i : Nat} {rows : List (Stamped Exact (List (Cell Exact)))}
  {ss : List (Stretch (List (Cell Exact)))} {first last start stop : Rat}

/-- Every row of a tiling states its duration. -/
theorem durations (h : Tiling i rows ss first last) (column : String) :
    (rows.map fun row => cellAt row i).mapM (durationOf column)
      = .ok (rows.map (durationAt i)) := by
  have hrow : ∀ row ∈ rows, durationOf column (cellAt row i) = .ok (durationAt i row) := by
    intro row hrow
    -- each row stands for some stretch, and its duration is the length of that stretch
    have hmem : stretchAt i row ∈ ss.map some := h.reads ▸ List.mem_map_of_mem hrow
    obtain ⟨s, -, hs⟩ := List.mem_map.mp hmem
    rw [durationAt_of_stretchAt hs.symm, durationOf, duration_of_stretchAt hs.symm]
    rfl
  rw [List.mapM_map]
  exact mapM_ok hrow

/-- The end of the last row is the end of the tiling. -/
theorem dataEnd? (hne : rows ≠ []) (h : Tiling i rows ss first last) :
    StepSignal.dataEnd? (lastingRows i rows) = some (.num last) := by
  obtain ⟨hreads, htile⟩ := h
  induction ss generalizing rows first with
  | nil => exact absurd (by simpa using hreads) hne
  | cons s ss ih =>
    rcases rows with - | ⟨row, rows⟩
    · exact absurd rfl hne
    obtain ⟨hrow, hrows⟩ := List.cons.inj hreads
    obtain ⟨rfl, -, hrest⟩ := htile
    rcases rows with - | ⟨next, rows⟩
    · obtain rfl : ss = [] := by simpa using hrows.symm
      simp [StepSignal.dataEnd?, lastingRows, time_of_stretchAt hrow, durationAt_of_stretchAt hrow,
        show s.closing = last from hrest]
    · have := ih (List.cons_ne_nil _ _) hrows hrest
      simpa [StepSignal.dataEnd?, lastingRows, List.getLast?_cons] using this

/-- Squashing a tiling to a window that it reaches into gives a tiling of the part of the window
that it covers. -/
theorem squashRows (h : Tiling i rows ss first last) (hlt : max start first < stop)
    (hstop : stop ≤ last) :
    Tiling i (StepSignal.squashRows (lastingAt i) (lastingRows i rows) (.num start) (.num stop))
      (ss.filterMap (clip start stop)) (max start first) stop where
  reads := stretchAt_squashRows ((le_max_left _ _).trans_lt hlt) hstop h.reads h.tile
  tile := h.tile.clip hlt hstop

end Tiling

/-- Squashing a table of which every row states its duration: a stop beyond the end of the data is
moved back to it, and the rows are squashed unless the window is reversed then. -/
theorem Table.squash_of_durations {α : Type} [Scalar α] {t : Table α} {column : String} {i : Nat}
    {durations : List α} {dataEnd start stop : α} (hcolumn : t.position? column = some i)
    (hne : t.rows ≠ []) (hdurations : (t.cellsAt i).mapM (durationOf column) = .ok durations)
    (hend : dataEnd? (t.rows.zip durations) = some dataEnd)
    (hstart : Scalar.isFinite start = true) (hstop : Scalar.isFinite stop = true) :
    t.squash start stop column
      = let close := if Scalar.lt dataEnd stop then dataEnd else stop
        .ok { t with
          rows := if Scalar.lt close start then []
            else squashRows (fun d cells => cells.set i (.num d)) (t.rows.zip durations) start
              close } := by
  have hempty : t.isEmpty = false := by simpa [Table.isEmpty] using hne
  unfold Table.squash
  simp only [hstart, hstop, hempty, Table.position_eq_ok.mpr hcolumn, hdurations, ok_bind, hend,
    Bool.and_self, if_true, Bool.false_eq_true, if_false]
  generalize (if Scalar.lt dataEnd stop = true then dataEnd else stop) = close
  split <;> rfl

/-- Squashing a table without gaps. -/
theorem Table.squash_eq {t : Table Exact} {column : String} {i : Nat}
    {ss : List (Stretch (List (Cell Exact)))} {first last : Rat}
    (hcolumn : t.position? column = some i) (hne : t.rows ≠ [])
    (h : Tiling i t.rows ss first last) (start stop : Rat) :
    t.squash (.num start) (.num stop) column
      = .ok { t with
          rows := if min stop last < start then []
            else squashRows (lastingAt i) (lastingRows i t.rows) (.num start)
              (.num (min stop last)) } := by
  have hrows : t.rows.zip (t.rows.map (durationAt i)) = lastingRows i t.rows := by
    rw [lastingRows, ← List.zip_map']
    simp
  have hstop : (if Scalar.lt (Exact.num last) (Exact.num stop) then Exact.num last
      else Exact.num stop) = .num (min stop last) := by
    simp only [Exact.lt_num, decide_eq_true_eq]
    split <;> rename_i hlt
    · rw [min_eq_right hlt.le]
    · rw [min_eq_left (not_lt.mp hlt)]
  rw [Table.squash_of_durations hcolumn hne (h.durations column) (hrows ▸ h.dataEnd? hne) rfl rfl,
    hstop, hrows]
  simp only [Exact.lt_num, decide_eq_true_eq]
  rfl

/-- A table without rows is squashed to itself. -/
theorem Table.squash_of_isEmpty {t : Table Exact} (hempty : t.rows = []) (start stop : Rat)
    (column : String) : t.squash (.num start) (.num stop) column = .ok t := by
  have hrows : t.isEmpty = true := by rw [Table.isEmpty, hempty, List.isEmpty_nil]
  rw [Table.squash, hrows]
  rfl

/-- Squashing a table without gaps to a window that is not empty clips its stretches to the window.
-/
theorem Table.exists_squash {t : Table Exact} {column : String} {i : Nat}
    {ss : List (Stretch (List (Cell Exact)))} {first last start stop : Rat}
    (hcolumn : t.position? column = some i) (h : Tiling i t.rows ss first last)
    (hlt : start < min stop last) :
    ∃ out, t.squash (.num start) (.num stop) column = .ok out ∧ out.names = t.names ∧
      out.rows.map (stretchAt i) = (ss.filterMap (clip start (min stop last))).map some := by
  by_cases hempty : t.rows = []
  · have hss : ss = [] := by
      have hreads := h.reads
      rw [hempty] at hreads
      simpa using hreads.symm
    refine ⟨t, Table.squash_of_isEmpty hempty start stop column, rfl, ?_⟩
    rw [hempty, hss]
    rfl
  · refine ⟨_, Table.squash_eq hcolumn hempty h start stop, rfl, ?_⟩
    rw [if_neg hlt.not_gt]
    exact stretchAt_squashRows hlt (min_le_right _ _) h.reads h.tile

/-- **Squashing tiles the window.** Let a table without gaps and with positive durations reach from
`first` to `last`. If the window `[start, stop)` meets it, squashing succeeds, and the rows of the
result follow each other without a gap from `max start first` to `min stop last`; at every time in
between the cells, apart from the duration, are those of the table. If the window and the table are
apart, the result has all the columns and no rows. -/
theorem Table.squash_tiles {t : Table Exact} {column : String} {i : Nat}
    {ss : List (Stretch (List (Cell Exact)))} {first last : Rat}
    (hcolumn : t.position? column = some i) (hne : t.rows ≠ [])
    (h : Tiling i t.rows ss first last) (start stop : Rat) :
    (max start first < min stop last →
      ∃ out pieces, t.squash (.num start) (.num stop) column = .ok out ∧ out.names = t.names ∧
        Tiling i out.rows pieces (max start first) (min stop last) ∧
        (pieces.map fun s => s.closing - s.opening).sum = min stop last - max start first ∧
        ∀ time, max start first ≤ time → time < min stop last →
          ∃ piece source, pieces.find? (covers time) = some piece ∧
            ss.find? (covers time) = some source ∧ piece.value = source.value) ∧
    (min stop last < max start first →
      t.squash (.num start) (.num stop) column = .ok t.emptyLike) := by
  rw [Table.squash_eq hcolumn hne h]
  refine ⟨fun hlt => ?_, fun hlt => ?_⟩
  · have hstart : start < min stop last := (le_max_left _ _).trans_lt hlt
    have htiling := h.squashRows hlt (min_le_right stop last)
    rw [if_neg (not_lt.mpr hstart.le)]
    refine ⟨_, _, rfl, rfl, htiling, htiling.tile.sum_lengths, fun time hlo hhi => ?_⟩
    have hpiece := htiling.tile.find?_isSome hlo hhi
    have hsource := h.tile.find?_isSome ((le_max_right _ _).trans hlo)
      (hhi.trans_le (min_le_right _ _))
    obtain ⟨piece, hpiece⟩ := Option.isSome_iff_exists.mp hpiece
    obtain ⟨source, hsource⟩ := Option.isSome_iff_exists.mp hsource
    refine ⟨piece, source, hpiece, hsource, ?_⟩
    -- clipping does not change what holds at a time of the window
    have hvalue := find?_covers_clip ((le_max_left start first).trans hlo) hhi ss
    rw [hpiece, hsource] at hvalue
    exact Option.some.inj hvalue
  · rcases lt_or_ge (min stop last) start with hrev | hstart
    · rw [if_pos hrev, Table.emptyLike]
    · -- the window closes before the table begins
      have hfirst : min stop last < first := (lt_max_iff.mp hlt).resolve_left (not_lt.mpr hstart)
      rw [if_neg (not_lt.mpr hstart),
        squashRows_of_le (hstart.trans hfirst.le) hstart h.reads h.tile, cutRows,
        takeWhile_lastingRows h.reads h.tile hfirst]
      rfl

/-- Three rows that last from 0 to 7, squashed to the times from 1 to 5. -/
theorem Table.squash_tiles_of_three_rows :
    let t : Table Exact := ⟨["state", "delta"], [
      ⟨.num 0, [.text "a", .int 2]⟩, ⟨.num 2, [.text "b", .num (.num 1)]⟩,
      ⟨.num 3, [.text "c", .int 4]⟩]⟩
    let ss : List (Stretch (List (Cell Exact))) :=
      [⟨0, 2, [.text "a"]⟩, ⟨2, 3, [.text "b"]⟩, ⟨3, 7, [.text "c"]⟩]
    t.position? "delta" = some 1 ∧ t.rows ≠ [] ∧ Tiling 1 t.rows ss 0 7 ∧
      ∃ out pieces, t.squash (.num 1) (.num 5) "delta" = .ok out ∧ out.names = t.names ∧
        Tiling 1 out.rows pieces (max 1 0) (min 5 7) ∧
        (pieces.map fun s => s.closing - s.opening).sum = min 5 7 - max 1 0 ∧
        ∀ time, max 1 0 ≤ time → time < min 5 7 →
          ∃ piece source, pieces.find? (covers time) = some piece ∧
            ss.find? (covers time) = some source ∧ piece.value = source.value := by
  intro t ss
  have hcolumn : t.position? "delta" = some 1 := by decide
  have hne : t.rows ≠ [] := List.cons_ne_nil _ _
  have htwo : (2 : Int64).toInt = 2 := rfl
  have hfour : (4 : Int64).toInt = 4 := rfl
  have htiling : Tiling 1 t.rows ss 0 7 := by
    constructor
    · norm_num [t, ss, stretchAt, cellAt, Cell.number?, Scalar.ofInt, htwo, hfour]
    · norm_num [ss, Tile]
  exact ⟨hcolumn, hne, htiling, (Table.squash_tiles hcolumn hne htiling 1 5).1 (by norm_num)⟩

end StepSignal
