import StepSignal.Proofs.Squash

/-!
# Squashing what was squashed

Squashing a table without gaps clips its stretches to the window, and a stretch that is clipped to a
window and then to one inside it is clipped to the inner one. So a table may be cut down to a part
before it is squashed to a window in that part: the rows are the same, with the same times and with
durations of the same size.

The duration cells may differ in kind. The row that the first cut made the last one is cut again by
the second, which states its duration as a number even where the direct result carries an integer
through.
-/

namespace StepSignal

open Stretch

variable {i : Nat} {rows others : List (Stamped Exact (List (Cell Exact)))}
  {row other : Stamped Exact (List (Cell Exact))} {s : Stretch (List (Cell Exact))}
  {ss : List (Stretch (List (Cell Exact)))} {t : Table Exact} {column : String}
  {first last start stop : Rat}

/-! ## Rows that say the same -/

/-- Two rows are the same except for the kind of the cell at position `i`, which states the same
duration in both. -/
structure SameLasting (i : Nat) (row other : Stamped Exact (List (Cell Exact))) : Prop where
  time : row.time = other.time
  duration : (cellAt row i).number? = (cellAt other i).number?
  others : row.value.eraseIdx i = other.value.eraseIdx i

theorem sameLasting_of_stretchAt (hrow : stretchAt i row = some s)
    (hother : stretchAt i other = some s) : SameLasting i row other where
  time := by rw [time_of_stretchAt hrow, time_of_stretchAt hother]
  duration := by rw [duration_of_stretchAt hrow, duration_of_stretchAt hother]
  others := by rw [← value_of_stretchAt hrow, value_of_stretchAt hother]

/-- Rows that are in effect on the same stretches are the same, one by one. -/
theorem forall₂_sameLasting (hrows : rows.map (stretchAt i) = ss.map some)
    (hothers : others.map (stretchAt i) = ss.map some) :
    List.Forall₂ (SameLasting i) rows others := by
  induction ss generalizing rows others with
  | nil =>
    obtain rfl : rows = [] := by simpa using hrows
    obtain rfl : others = [] := by simpa using hothers
    exact .nil
  | cons s ss ih =>
    rcases rows with - | ⟨row, rows⟩
    · simp at hrows
    rcases others with - | ⟨other, others⟩
    · simp at hothers
    obtain ⟨hrow, hrows⟩ := List.cons.inj hrows
    obtain ⟨hother, hothers⟩ := List.cons.inj hothers
    exact .cons (sameLasting_of_stretchAt hrow hother) (ih hrows hothers)

/-! ## A window of a window -/

/-- What a window cuts out of a tiling is a tiling up to the end of the window. -/
theorem Tile.exists_clip (ht : Tile ss first last) (hlt : start < stop) (hstop : stop ≤ last) :
    ∃ opening, Tile (ss.filterMap (clip start stop)) opening stop := by
  rcases lt_or_ge first stop with hreach | hafter
  · exact ⟨max start first, ht.clip (max_lt hlt hreach) hstop⟩
  · -- the window is over when the tiling begins
    rw [ht.clip_eq_nil hafter]
    exact ⟨stop, rfl⟩

/-- **Squashing nests.** For a table without gaps and with positive durations, over exact scalars,
squashing to a window and then to one inside it that starts before the end of the data gives the
same rows as squashing to the inner window at once: the same times, durations of the same size, and
the same other cells. These rows are the stretches of the table, clipped to the inner window. -/
theorem Table.squash_nested (hcolumn : t.position? column = some i)
    (h : Tiling i t.rows ss first last) {outerStart outerStop : Rat} (hstart : outerStart ≤ start)
    (hlt : start < stop) (hstop : stop ≤ outerStop) (hlast : start < last) :
    ∃ cut out direct, t.squash (.num outerStart) (.num outerStop) column = .ok cut ∧
      cut.squash (.num start) (.num stop) column = .ok out ∧
      t.squash (.num start) (.num stop) column = .ok direct ∧ out.names = direct.names ∧
      List.Forall₂ (SameLasting i) out.rows direct.rows ∧
      direct.rows.map (stretchAt i) = (ss.filterMap (clip start (min stop last))).map some := by
  have hinner : start < min stop last := lt_min hlt hlast
  have hends : min stop (min outerStop last) = min stop last := by
    rw [← min_assoc, min_eq_left hstop]
  have houter : outerStart < min outerStop last :=
    lt_min (hstart.trans_lt (hlt.trans_le hstop)) (hstart.trans_lt hlast)
  obtain ⟨cut, hcut, hcutNames, hcutRows⟩ := Table.exists_squash hcolumn h houter
  obtain ⟨direct, hdirect, hdirectNames, hdirectRows⟩ := Table.exists_squash hcolumn h hinner
  -- the table that was cut out has no gaps either, and ends where the outer window does
  obtain ⟨opening, htile⟩ := Tile.exists_clip h.tile houter (min_le_right _ _)
  have hcutColumn : cut.position? column = some i := by
    rw [Table.position?, hcutNames]
    exact hcolumn
  have hreach : start < min stop (min outerStop last) := hinner.trans_eq hends.symm
  obtain ⟨out, hout, houtNames, houtRows⟩ :=
    Table.exists_squash hcutColumn ⟨hcutRows, htile⟩ hreach
  rw [hends, List.filterMap_filterMap] at houtRows
  simp only [clip_clip hstart (min_le_min_right last hstop)] at houtRows
  refine ⟨cut, out, direct, hcut, hout, hdirect, ?_, forall₂_sameLasting houtRows hdirectRows,
    hdirectRows⟩
  rw [houtNames, hcutNames, hdirectNames]

/-- Three rows that last from 0 to 7, cut down to the times from 1 to 3 and then to those from 2 to
3: the second row is carried through directly, and states its duration as a number after the cut. -/
theorem Table.squash_nested_of_three_rows :
    let t : Table Exact := ⟨["state", "delta"], [
      ⟨.num 0, [.text "a", .int 2]⟩, ⟨.num 2, [.text "b", .int 1]⟩,
      ⟨.num 3, [.text "c", .int 4]⟩]⟩
    let ss : List (Stretch (List (Cell Exact))) :=
      [⟨0, 2, [.text "a"]⟩, ⟨2, 3, [.text "b"]⟩, ⟨3, 7, [.text "c"]⟩]
    t.position? "delta" = some 1 ∧ Tiling 1 t.rows ss 0 7 ∧
      ∃ cut out direct, t.squash (.num 1) (.num 3) "delta" = .ok cut ∧
        cut.squash (.num 2) (.num 3) "delta" = .ok out ∧
        t.squash (.num 2) (.num 3) "delta" = .ok direct ∧ out.names = direct.names ∧
        List.Forall₂ (SameLasting 1) out.rows direct.rows ∧
        direct.rows.map (stretchAt 1) = (ss.filterMap (clip 2 (min 3 7))).map some := by
  intro t ss
  have hcolumn : t.position? "delta" = some 1 := by decide
  have hone : (1 : Int64).toInt = 1 := rfl
  have htwo : (2 : Int64).toInt = 2 := rfl
  have hfour : (4 : Int64).toInt = 4 := rfl
  have htiling : Tiling 1 t.rows ss 0 7 := by
    constructor
    · norm_num [t, ss, stretchAt, cellAt, Cell.number?, Scalar.ofInt, hone, htwo, hfour]
    · norm_num [ss, Tile]
  exact ⟨hcolumn, htiling, Table.squash_nested hcolumn htiling (by norm_num) (by norm_num)
    (by norm_num) (by norm_num)⟩

end StepSignal
