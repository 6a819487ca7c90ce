import StepSignal.Proofs.Binary64.Neighbours
import StepSignal.Proofs.Squash
import StepSignal.Proofs.Table

/-!
# Squashing to adjacent windows

Where one window ends and the next one begins, squashing splits what it accounts for in two. If a
row sits there, the first window leaves it out and the second one begins with it, so the two results
together are that of both windows at once, to the last bit. If the time falls within an interval,
that interval is cut: its first part is the last row of the first window, and its second part is
pulled forward into the second one.
-/

namespace StepSignal

open Scalar Stretch

/-! ## Rows between bounds -/

section Between

variable {α β : Type} [Scalar α] {lasting : α → β → β} {low high before after : List (Lasting α β)}
  {row : Lasting α β} {start stop : α}

theorem rowsBetween_append (hstart : lt row.1.time start = false)
    (hstop : ∀ r ∈ low ++ [row], le r.1.time stop = true) :
    rowsBetween (low ++ row :: high) start stop
      = low.dropWhile (fun r => lt r.1.time start) ++
        row :: high.takeWhile fun r => le r.1.time stop := by
  have hdrop : (low ++ row :: high).dropWhile (fun r => lt r.1.time start)
      = low.dropWhile (fun r => lt r.1.time start) ++ row :: high := by
    rw [List.dropWhile_append, List.dropWhile_cons_of_neg (by simp [hstart])]
    split <;> rename_i hnil
    · rw [List.isEmpty_iff.mp hnil, List.nil_append]
    · rfl
  have hlow : ∀ r ∈ low.dropWhile (fun r => lt r.1.time start), le r.1.time stop = true :=
    fun r hr => hstop r (List.mem_append_left _ ((List.dropWhile_sublist _).mem hr))
  rw [rowsBetween, hdrop, List.takeWhile_append_of_pos hlow, List.takeWhile_cons, if_pos]
  exact hstop row (by simp)

/-- Rows before the last ones are carried through. -/
theorem cutAt_append (hne : after ≠ []) :
    cutAt lasting stop (before ++ after) = before.map (·.1) ++ cutAt lasting stop after := by
  induction before with
  | nil => rfl
  | cons row before ih =>
    obtain ⟨next, rest, hnext⟩ :=
      List.exists_cons_of_ne_nil (List.append_ne_nil_of_right_ne_nil before hne)
    rw [List.cons_append, hnext, cutAt, ← hnext, ih]
    rfl

/-- No row is pulled forward when the first row of the window sits at its start. -/
theorem openingPiece_eq_nil (rows : List (Lasting α β)) (h : eq row.1.time start = true) :
    openingPiece lasting rows (row :: after) start stop = [] := by
  unfold openingPiece
  rcases rowInProgress rows start with - | ⟨source, d⟩
  · rfl
  · exact if_pos h

end Between

/-! ## Windows that meet at a row -/

section Meet

variable {α β : Type} [Scalar α] {low high : List (Lasting α β)} {row : Lasting α β}
  {middle a b : α}

/-- Rows of which one sits at `middle`, the others before it and after it. -/
structure MeetAt (low : List (Lasting α β)) (row : Lasting α β) (high : List (Lasting α β))
    (middle : α) : Prop where
  sits : eq row.1.time middle = true
  before : ∀ r ∈ low, lt r.1.time middle = true
  after : ∀ r ∈ high, ¬ le r.1.time middle = true

namespace MeetAt

theorem le_middle (hm : MeetAt low row high middle) {r : Lasting α β} (hr : r ∈ low ++ [row]) :
    le r.1.time middle = true := by
  rcases List.mem_append.mp hr with hr | hr
  · rw [le, hm.before r hr, Bool.true_or]
  · rw [List.mem_singleton.mp hr, le, hm.sits, Bool.or_true]

theorem dropWhile_eq_nil (hm : MeetAt low row high middle) :
    low.dropWhile (fun r => lt r.1.time middle) = [] := List.dropWhile_eq_nil_iff.mpr hm.before

theorem takeWhile_eq_nil (hm : MeetAt low row high middle) :
    high.takeWhile (fun r => le r.1.time middle) = [] := by
  rcases high with - | ⟨next, high⟩
  · rfl
  · exact List.takeWhile_cons_of_neg (hm.after next (by simp))

variable [LawfulScalar α]

/-- Any window around the middle has the row there, rows before it and rows after it. -/
theorem rowsBetween (hm : MeetAt low row high middle) (ha : le a middle = true)
    (hb : le middle b = true) :
    rowsBetween (low ++ row :: high) a b = low.dropWhile (fun r => lt r.1.time a) ++
      row :: high.takeWhile fun r => le r.1.time b := by
  obtain ⟨hrow, -, heq⟩ := (LawfulScalar.eq_iff _ _).mp hm.sits
  obtain ⟨hanumber, -, hle⟩ := (le_iff _ _).mp ha
  refine rowsBetween_append ?_ fun r hr => le_of_le_of_le (hm.le_middle hr) hb
  exact lt_eq_false_of_le ((le_iff _ _).mpr ⟨hanumber, hrow, heq ▸ hle⟩)

end MeetAt

variable [LawfulScalar α]

theorem Ordered.meetAt (h : Ordered (lastingTimes (low ++ row :: high)))
    (hrow : eq row.1.time middle = true) : MeetAt low row high middle := by
  obtain ⟨-, hnumber, heq⟩ := (LawfulScalar.eq_iff _ _).mp hrow
  have hpairs : (low ++ row :: high).Pairwise fun r s => Before r.1.time s.1.time :=
    List.pairwise_map.mp h.pairwise
  obtain ⟨-, hhigh, hlow⟩ := List.pairwise_append.mp hpairs
  refine ⟨hrow, fun r hr => ?_, fun r hr hle => ?_⟩
  · have hrnumber := h.isMissing_of_mem (List.mem_map_of_mem (List.mem_append_left _ hr))
    exact (LawfulScalar.lt_iff _ _).mpr ⟨hrnumber, hnumber, heq ▸ hlow r hr row (by simp)⟩
  · have hlt := (List.pairwise_cons.mp hhigh).1 r hr
    exact hlt.not_ge (heq ▸ ((le_iff _ _).mp hle).2.2)

/-- The first row of a window up to the middle is between its bounds. -/
theorem MeetAt.next_bounds (hm : MeetAt low row high middle)
    (h : Ordered (lastingTimes (low ++ row :: high))) (ha : le a middle = true)
    {next : Lasting α β} (hnext : next ∈ (low.dropWhile (fun r => lt r.1.time a) ++ [row]).head?) :
    isFinite next.1.time = true ∧ le a next.1.time = true ∧ le next.1.time middle = true := by
  obtain ⟨hanumber, hmnumber, -⟩ := (le_iff _ _).mp ha
  have hbetween := hm.rowsBetween ha ((le_iff middle middle).mpr ⟨hmnumber, hmnumber, le_rfl⟩)
  rw [hm.takeWhile_eq_nil] at hbetween
  have hmem : next ∈ low ++ [row] :=
    ((List.dropWhile_sublist _).append_right [row]).mem (List.mem_of_head? hnext)
  have hfinite : isFinite next.1.time = true := by
    refine h.1 _ (List.mem_map_of_mem ?_)
    rw [List.append_cons]
    exact List.mem_append_left _ hmem
  have hnumber := LawfulScalar.isMissing_of_isFinite _ hfinite
  have hge := not_lt_of_head?_rowsBetween (hbetween ▸ hnext)
  rw [lt_eq hnumber hanumber, decide_eq_false_iff_not, not_lt] at hge
  exact ⟨hfinite, (le_iff _ _).mpr ⟨hanumber, hnumber, hge⟩, hm.le_middle hmem⟩

end Meet

section Row

variable {β : Type} {lasting : Float → β → β} {low high rows : List (Lasting Float β)}
  {row : Lasting Float β} {start middle stop : Float}

/-- The row pulled forward does not depend on how far the window reaches beyond the next row. -/
theorem openingPiece_append {before after : List (Lasting Float β)}
    (hnext : ∀ next ∈ (before ++ [row]).head?, next.1.time.isFinite = true ∧
      le start next.1.time = true ∧ le next.1.time middle = true)
    (hstart : start.isFinite = true) (hmiddle : middle.isFinite = true)
    (hstop : stop.isFinite = true) (hle : le middle stop = true) :
    openingPiece lasting rows (before ++ row :: after) start stop
      = openingPiece lasting rows (before ++ [row]) start middle := by
  have hhead : ∃ next, ∀ after, (before ++ row :: after).head? = some next := by
    rcases before with - | ⟨next, before⟩
    · exact ⟨row, fun _ => rfl⟩
    · exact ⟨next, fun _ => rfl⟩
  obtain ⟨next, hhead⟩ := hhead
  obtain ⟨hfinite, hafter, hnear⟩ := hnext next (hhead [])
  unfold openingPiece
  rw [hhead, hhead]
  rcases rowInProgress rows start with - | ⟨source, d⟩
  · rfl
  by_cases heq : eq next.1.time start = true
  · simp [heq]
  · have hlt : lt start next.1.time = true := lt_of_le_of_not_eq hafter heq
    have hmin := Binary64.min_sub_sub hfinite hmiddle hstart hlt hnear
    have hmin' := Binary64.min_sub_sub hfinite hstop hstart hlt (le_of_le_of_le hnear hle)
    simp [heq, hmin, hmin']

/-- Windows that meet at a row account for the same rows as the two of them at once. -/
theorem squashRows_append (h : Ordered (lastingTimes (low ++ row :: high)))
    (hrow : eq row.1.time middle = true) (hstart : start.isFinite = true)
    (hmiddle : middle.isFinite = true) (hstop : stop.isFinite = true)
    (hle : le start middle = true) (hle' : le middle stop = true) :
    squashRows lasting (low ++ row :: high) start stop
      = squashRows lasting (low ++ row :: high) start middle ++
        squashRows lasting (low ++ row :: high) middle stop := by
  have hm := h.meetAt hrow
  obtain ⟨-, hmnumber, -⟩ := (le_iff _ _).mp hle
  have hself : le middle middle = true := (le_iff _ _).mpr ⟨hmnumber, hmnumber, le_rfl⟩
  have hopening : openingPiece lasting (low ++ row :: high)
      (low.dropWhile (fun r => lt r.1.time start) ++
        row :: high.takeWhile fun r => le r.1.time stop) start stop
      = openingPiece lasting (low ++ row :: high)
        (low.dropWhile (fun r => lt r.1.time start) ++ [row]) start middle :=
    openingPiece_append (fun _ hnext => hm.next_bounds h hle hnext) hstart hmiddle hstop hle'
  -- the first window leaves the row in the middle out, and the second one begins with it
  have hcut : cutAt lasting middle [row] = [] := if_pos hrow
  simp only [squashRows, hm.rowsBetween hle hself, hm.rowsBetween hle hle',
    hm.rowsBetween hself hle', hm.dropWhile_eq_nil, hm.takeWhile_eq_nil, hopening,
    openingPiece_eq_nil _ hrow, cutAt_append (List.cons_ne_nil _ _), hcut, List.nil_append,
    List.append_nil, List.append_assoc]

end Row

/-! ## Tables that are squashed at a row -/

section Tables

variable {t : Table Float} {column : String} {i : Nat} {durations : List Float}
  {start middle stop : Float}

/-- Every row of a table states a finite duration at position `i`, and none is negative. -/
def Table.LastsAt (t : Table Float) (i : Nat) : Prop :=
  ∀ row ∈ t.rows, ∃ d, (cellAt row i).number? = some d ∧ d.isFinite = true ∧ 0 ≤ d

/-- The durations that are read off a table. -/
theorem Table.LastsAt.exists_durations (h : t.LastsAt i) (column : String) :
    ∃ durations, (t.cellsAt i).mapM (durationOf column) = .ok durations ∧
      durations.length = t.rows.length ∧ ∀ d ∈ durations, d.isFinite = true ∧ 0 ≤ d := by
  have hread : ∀ row ∈ t.rows, durationOf column (cellAt row i)
      = .ok ((cellAt row i).number?.getD Scalar.missing) := by
    intro row hrow
    obtain ⟨d, hd, hfinite, -⟩ := h row hrow
    rw [durationOf, hd]
    exact if_pos hfinite
  refine ⟨t.rows.map fun row => (cellAt row i).number?.getD Scalar.missing, ?_, by simp, ?_⟩
  · rw [Table.cellsAt, List.mapM_map]
    exact mapM_ok hread
  · intro d hd
    obtain ⟨row, hrow, rfl⟩ := List.mem_map.mp hd
    obtain ⟨d, hd, hfinite, hpos⟩ := h row hrow
    rw [hd]
    exact ⟨hfinite, hpos⟩

theorem lastingTimes_zip {β : Type} {rows : List (Stamped Float β)} {durations : List Float}
    (h : durations.length = rows.length) :
    lastingTimes (rows.zip durations) = Stamped.times rows := by
  rw [lastingTimes, ← Function.comp_def Stamped.time Prod.fst, ← List.map_map,
    List.map_fst_zip h.ge]
  rfl

/-- The data does not end before its last row begins. -/
theorem le_dataEnd {rows : List (Lasting Float (List (Cell Float)))}
    (h : Ordered (lastingTimes rows)) (hd : ∀ r ∈ rows, r.2.isFinite = true ∧ 0 ≤ r.2)
    (hne : rows ≠ []) :
    ∃ dataEnd, dataEnd? rows = some dataEnd ∧ ∀ r ∈ rows, le r.1.time dataEnd = true := by
  have hlast := List.getLast?_eq_some_getLast hne
  generalize rows.getLast hne = last at hlast
  have hmem := List.mem_of_getLast? hlast
  have hfinite := h.1 last.1.time (List.mem_map_of_mem hmem)
  obtain ⟨hdfinite, hdpos⟩ := hd last hmem
  have hend : le last.1.time (last.1.time + last.2) = true := by
    have hunits : 0 ≤ Binary64.units last.2 := (Binary64.le_iff_units.mp hdpos).2.2
    exact (le_iff _ _).mpr ⟨Binary64.isNaN_of_isFinite hfinite, Binary64.isNaN_add hfinite hdfinite,
      Binary64.toRat_le_iff.mpr (Binary64.units_le_add hfinite hdfinite hunits)⟩
  refine ⟨last.1.time + last.2, by rw [dataEnd?, hlast]; rfl, fun r hr => ?_⟩
  refine le_of_le_of_le ?_ hend
  have htimes : (lastingTimes rows).getLast? = some last.1.time := by
    rw [lastingTimes, List.getLast?_map, hlast]
    rfl
  obtain ⟨j, hj⟩ := List.mem_iff_getElem?.mp (List.mem_map_of_mem (f := fun r => r.1.time) hr)
  exact (le_iff _ _).mpr ⟨h.isMissing_of_mem (List.mem_map_of_mem hr),
    Binary64.isNaN_of_isFinite hfinite, h.le_last htimes hj⟩

/-- A stop that is moved back to the end of the data is finite and not before any row. -/
theorem close_bounds {dataEnd : Float} (hmiddle : middle.isFinite = true)
    (hstop : stop.isFinite = true) (hend : le middle dataEnd = true) (hle : le middle stop = true) :
    let close := if lt dataEnd stop then dataEnd else stop
    close.isFinite = true ∧ le middle close = true := by
  intro close
  by_cases hlt : lt dataEnd stop = true
  · obtain ⟨hnumber, -, hlt'⟩ := (LawfulScalar.lt_iff _ _).mp hlt
    have hclose : close = dataEnd := if_pos hlt
    rw [hclose]
    exact ⟨LawfulScalar.isFinite_of_le_of_le middle dataEnd stop hmiddle hstop hnumber
      ((le_iff _ _).mp hend).2.2 hlt'.le, hend⟩
  · have hclose : close = stop := if_neg hlt
    rw [hclose]
    exact ⟨hstop, hle⟩

/-- Squashing a table to two windows that meet at a row accounts for the rows of both at once. -/
theorem Table.squash_append (ht : t.Valid) (hne : t.rows ≠ [])
    (hcolumn : t.position? column = some i) (hlasts : t.LastsAt i)
    (hrow : ∃ row ∈ t.rows, eq row.time middle = true) (hstart : start.isFinite = true)
    (hstop : stop.isFinite = true) (hle : le start middle = true) (hle' : le middle stop = true) :
    ∃ low high, t.squash start middle column = .ok low ∧ t.squash middle stop column = .ok high ∧
      t.squash start stop column = .ok { t with rows := low.rows ++ high.rows } := by
  obtain ⟨durations, hdurations, hlength, hd⟩ := hlasts.exists_durations column
  have hfst : (t.rows.zip durations).map Prod.fst = t.rows := List.map_fst_zip hlength.ge
  have hordered : Ordered (lastingTimes (t.rows.zip durations)) :=
    lastingTimes_zip hlength ▸ ht.ordered
  have hrowsne : t.rows.zip durations ≠ [] := fun hnil => hne (by rw [← hfst, hnil]; rfl)
  obtain ⟨dataEnd, hend, hlast⟩ := le_dataEnd hordered
    (fun r hr => hd r.2 (List.of_mem_zip hr).2) hrowsne
  obtain ⟨row, hmem, hsits⟩ := hrow
  obtain ⟨r, hr, rfl⟩ := List.mem_map.mp (hfst ▸ hmem)
  obtain ⟨hrnumber, hmnumber, heq⟩ := (LawfulScalar.eq_iff _ _).mp hsits
  have hmiddle : middle.isFinite = true := by
    have hfinite := hordered.1 r.1.time (List.mem_map_of_mem hr)
    exact LawfulScalar.isFinite_of_le_of_le _ _ _ hfinite hfinite hmnumber heq.le heq.ge
  -- the middle is as far as a row, so it is not beyond the end of the data
  have hmend : le middle dataEnd = true :=
    le_of_le_of_le ((le_iff _ _).mpr ⟨hmnumber, hrnumber, heq.ge⟩) (hlast r hr)
  have hsquash : ∀ {a b close : Float}, a.isFinite = true → b.isFinite = true →
      (if lt dataEnd b then dataEnd else b) = close → le a close = true →
      t.squash a b column = .ok { t with
        rows := squashRows (fun d cells => cells.set i (.num d)) (t.rows.zip durations) a
          close } := by
    rintro a b _ ha hb rfl hclose
    rw [Table.squash_of_durations hcolumn hne hdurations hend ha hb]
    simp only [lt_eq_false_of_le hclose, Bool.false_eq_true, if_false]
  have hmid : (if lt dataEnd middle then dataEnd else middle) = middle := by
    rw [lt_eq_false_of_le hmend, if_neg Bool.false_ne_true]
  obtain ⟨hcfinite, hmclose⟩ := close_bounds hmiddle hstop hmend hle'
  refine ⟨_, _, hsquash hstart hmiddle hmid hle, hsquash hmiddle hstop rfl hmclose, ?_⟩
  rw [hsquash hstart hstop rfl (le_of_le_of_le hle hmclose)]
  obtain ⟨low, high, hsplit⟩ := List.append_of_mem hr
  rw [hsplit] at hordered ⊢
  rw [squashRows_append hordered hsits hstart hmiddle hcfinite hle hmclose]

end Tables

/-! ## Windows that meet within an interval -/

section Within

variable {i : Nat} {row next : Stamped Exact (List (Cell Exact))}
  {whole parts rows : List (Stamped Exact (List (Cell Exact)))}
  {s : Stretch (List (Cell Exact))} {ss : List (Stretch (List (Cell Exact)))}
  {start middle stop first last : Rat}

/-- The rows `parts` are the rows `whole`, with one row that is in effect before and after `time`
cut there into two. -/
def CutInTwo (i : Nat) (time : Rat) (whole parts : List (Stamped Exact (List (Cell Exact)))) :
    Prop :=
  ∃ before row after s, whole = before ++ row :: after ∧ stretchAt i row = some s ∧
    s.opening < time ∧ time < s.closing ∧
    parts = before ++ ⟨.num s.opening, lastingAt i (.num (time - s.opening)) row.value⟩ ::
      ⟨.num time, lastingAt i (.num (s.closing - time)) row.value⟩ :: after

theorem CutInTwo.cons (h : CutInTwo i middle whole parts)
    (row : Stamped Exact (List (Cell Exact))) :
    CutInTwo i middle (row :: whole) (row :: parts) := by
  obtain ⟨before, cut, after, s, rfl, hs, hopen, hclose, rfl⟩ := h
  exact ⟨row :: before, cut, after, s, rfl, hs, hopen, hclose, rfl⟩

theorem lastingAt_lastingAt (d e : Exact) (cells : List (Cell Exact)) :
    lastingAt i d (lastingAt i e cells) = lastingAt i d cells := List.set_set ..

/-- The row that is in effect at the middle is cut there, from its own time or from a start after
that. -/
theorem cutInTwo_row {opening closing : Rat} (hrow : stretchAt i row = some s)
    (hopen : opening < middle) (hclose : middle < closing)
    (after : List (Stamped Exact (List (Cell Exact)))) :
    CutInTwo i middle (⟨.num opening, lastingAt i (.num (closing - opening)) row.value⟩ :: after)
      (⟨.num opening, lastingAt i (.num (middle - opening)) row.value⟩ ::
        ⟨.num middle, lastingAt i (.num (closing - middle)) row.value⟩ :: after) := by
  refine ⟨[], _, after, _, rfl, stretchAt_lastingAt hrow _ _, hopen, ?_, ?_⟩
  · rwa [add_sub_cancel]
  · simp only [List.nil_append, lastingAt_lastingAt, add_sub_cancel]

/-- After a row that is over at the middle there is another one, which begins before it. -/
theorem exists_next {closing : Rat} (hover : closing ≤ middle) (hlt : middle < last)
    (hne : ∀ r ∈ row :: rows, r.time ≠ .num middle) (h : rows.map (stretchAt i) = ss.map some)
    (ht : Tile ss closing last) :
    ∃ next rest, rows = next :: rest ∧ next.time = .num closing ∧ closing < middle := by
  rcases rows with - | ⟨next, rest⟩
  · obtain rfl : ss = [] := by simpa using h.symm
    exact ((hover.trans_lt hlt).ne ht).elim
  · have hnext := head_time h ht
    refine ⟨next, rest, rfl, hnext, lt_of_le_of_ne hover fun heq => ?_⟩
    exact hne next (by simp) (heq ▸ hnext)

/-- The rows up to a time, and those pulled forward to it and after it, are the rows of both with
one cut in two. -/
theorem cutInTwo_cutRows (hfirst : first < middle) (hlt : middle < stop) (hstop : stop ≤ last)
    (hne : ∀ row ∈ rows, row.time ≠ .num middle) (h : rows.map (stretchAt i) = ss.map some)
    (ht : Tile ss first last) :
    CutInTwo i middle (cutRows i stop rows)
      (cutRows i middle rows ++
        squashRows (lastingAt i) (lastingRows i rows) (.num middle) (.num stop)) := by
  induction ss generalizing rows first with
  | nil => exact ((hfirst.trans (hlt.trans_le hstop)).ne ht).elim
  | cons s ss ih =>
    rcases rows with - | ⟨row, rows⟩
    · simp at h
    obtain ⟨hrow, hrows⟩ := List.cons.inj h
    obtain ⟨rfl, hs, hrest⟩ := ht
    rcases lt_or_ge middle s.closing with hin | hover
    · -- the first row is the one to be cut
      have hnone := takeWhile_lastingRows hrows hrest hin
      rw [cutRows_last hrow hfirst.le hnone hin.le, if_neg hfirst.ne,
        squashRows_open hrow hfirst hin hrows hrest hstop]
      rcases cutRows_cases hrow hs (hfirst.trans hlt).le hstop hrows hrest
        with ⟨hclose, hcut⟩ | ⟨hclose, hnil, hcut⟩
      · rw [hcut, min_eq_left hclose]
        exact ⟨[], row, _, s, rfl, hrow, hfirst, hin, rfl⟩
      · rw [hcut, if_neg (hfirst.trans hlt).ne, hnil, min_eq_right hclose]
        exact cutInTwo_row hrow hfirst hlt []
    · obtain ⟨next, rest, rfl, hnext, hlt'⟩ :=
        exists_next hover (hlt.trans_le hstop) hne hrows hrest
      rw [cutRows_carry hrow hnext hs hover, cutRows_carry hrow hnext hs (hover.trans hlt.le),
        squashRows_skip hrow hnext hs hover]
      exact (ih hlt' (fun r hr => hne r (List.mem_cons_of_mem _ hr)) hrows hrest).cons row

/-- Squashing to two windows that meet within an interval cuts it in two. -/
theorem cutInTwo_squashRows (hstart : start < middle) (hfirst : first < middle)
    (hlt : middle < stop) (hstop : stop ≤ last) (hne : ∀ row ∈ rows, row.time ≠ .num middle)
    (h : rows.map (stretchAt i) = ss.map some) (ht : Tile ss first last) :
    CutInTwo i middle
      (squashRows (lastingAt i) (lastingRows i rows) (.num start) (.num stop))
      (squashRows (lastingAt i) (lastingRows i rows) (.num start) (.num middle) ++
        squashRows (lastingAt i) (lastingRows i rows) (.num middle) (.num stop)) := by
  induction ss generalizing rows first with
  | nil => exact ((hfirst.trans (hlt.trans_le hstop)).ne ht).elim
  | cons s ss ih =>
    rcases le_or_gt start first with hbefore | hafter
    -- the window opens with the rows or before them, so nothing is pulled forward
    · rw [squashRows_of_le hbefore (hstart.trans hlt).le h ht,
        squashRows_of_le hbefore hstart.le h ht]
      exact cutInTwo_cutRows hfirst hlt hstop hne h ht
    rcases rows with - | ⟨row, rows⟩
    · simp at h
    obtain ⟨hrow, hrows⟩ := List.cons.inj h
    obtain ⟨rfl, hs, hrest⟩ := ht
    rcases lt_or_ge middle s.closing with hin | hover
    · -- the row in progress at the start is the one to be cut
      have hopen := hstart.trans hin
      rw [squashRows_open hrow hafter hopen hrows hrest hstop,
        squashRows_open hrow hafter hopen hrows hrest (hlt.le.trans hstop),
        squashRows_open hrow hfirst hin hrows hrest hstop, min_eq_right hin.le,
        cutRows_eq_nil hrows hrest hin]
      exact cutInTwo_row hrow hstart (lt_min hin hlt) _
    obtain ⟨next, rest, rfl, hnext, hlt'⟩ := exists_next hover (hlt.trans_le hstop) hne hrows hrest
    have hne' : ∀ row ∈ next :: rest, row.time ≠ .num middle := fun r hr =>
      hne r (List.mem_cons_of_mem _ hr)
    rw [squashRows_skip hrow hnext hs hover]
    rcases lt_or_ge start s.closing with hopen | hpast
    · rw [squashRows_open hrow hafter hopen hrows hrest hstop,
        squashRows_open hrow hafter hopen hrows hrest (hlt.le.trans hstop), min_eq_left hover,
        min_eq_left (hover.trans hlt.le)]
      exact (cutInTwo_cutRows hlt' hlt hstop hne' hrows hrest).cons _
    · rw [squashRows_skip hrow hnext hs hpast, squashRows_skip hrow hnext hs hpast]
      exact ih hlt' hne' hrows hrest

/-- Squashing a table without gaps to two windows that meet within an interval cuts in two the one
row that is in effect there. -/
theorem Table.cutInTwo_squash {t : Table Exact} {column : String}
    (hcolumn : t.position? column = some i) (hne : t.rows ≠ []) (h : Tiling i t.rows ss first last)
    (hstart : start < middle) (hstop : middle < stop) (hfirst : first < middle)
    (hlast : middle < last) (hmiss : ∀ row ∈ t.rows, row.time ≠ .num middle) :
    ∃ low high whole, t.squash (.num start) (.num middle) column = .ok low ∧
      t.squash (.num middle) (.num stop) column = .ok high ∧
      t.squash (.num start) (.num stop) column = .ok whole ∧
      CutInTwo i middle whole.rows (low.rows ++ high.rows) ∧
      whole.rows.countP (fun row => (stretchAt i row).any (covers middle)) = 1 := by
  have hclose : middle < Min.min stop last := lt_min hstop hlast
  have hle := min_le_right stop last
  have htiling := h.squashRows ((max_lt hstart hfirst).trans hclose) hle
  rw [Table.squash_eq hcolumn hne h, Table.squash_eq hcolumn hne h, Table.squash_eq hcolumn hne h,
    min_eq_left hlast.le, if_neg hstart.not_gt, if_neg hclose.not_gt,
    if_neg (hstart.trans hclose).not_gt]
  refine ⟨_, _, _, rfl, rfl, rfl, cutInTwo_squashRows hstart hfirst hclose hle hmiss h.reads h.tile,
    ?_⟩
  have hcount := htiling.tile.countP_covers (max_lt hstart hfirst).le hclose
  have hread := congrArg (List.countP fun s => s.any (covers middle)) htiling.reads
  rw [List.countP_map, List.countP_map] at hread
  exact hread.trans hcount

end Within

/-- A window with an infinite bound is refused. -/
theorem Table.squash_of_not_finite {α : Type} [Scalar α] {t : Table α} {start stop : α}
    (h : ¬ (isFinite start = true ∧ isFinite stop = true)) (column : String) :
    t.squash start stop column = .error (.squashNotFinite start stop) := by
  rw [← Bool.and_eq_true] at h
  rw [Table.squash, if_neg h]
  rfl

/-- **Squashing composes over adjacent windows.** Where two windows meet at a row, their rows
together are those of both windows at once; if a bound is infinite the window of both is refused,
and so is the one that has this bound. Where two windows meet within an interval of a table without
gaps, over exact scalars, the one row that is in effect there is cut in two, and all others are the
same. -/
theorem Table.squash_adjacent :
    (∀ (t : Table Float) (column : String) (i : Nat) (start middle stop : Float), t.Valid →
      t.rows ≠ [] → t.position? column = some i → t.LastsAt i →
      (∃ row ∈ t.rows, (row.time == middle) = true) → start ≤ middle → middle ≤ stop →
      (start.isFinite = true ∧ stop.isFinite = true → ∃ low high,
        t.squash start middle column = .ok low ∧ t.squash middle stop column = .ok high ∧
          t.squash start stop column = .ok { t with rows := low.rows ++ high.rows }) ∧
      (¬ (start.isFinite = true ∧ stop.isFinite = true) →
        t.squash start stop column = .error (.squashNotFinite start stop) ∧
          (t.squash start middle column = .error (.squashNotFinite start middle) ∨
            t.squash middle stop column = .error (.squashNotFinite middle stop)))) ∧
    (∀ (t : Table Exact) (column : String) (i : Nat) (ss : List (Stretch (List (Cell Exact))))
      (first last start middle stop : Rat), t.position? column = some i → t.rows ≠ [] →
      Tiling i t.rows ss first last → start < middle → middle < stop → first < middle →
      middle < last → (∀ row ∈ t.rows, row.time ≠ .num middle) →
      ∃ low high whole, t.squash (.num start) (.num middle) column = .ok low ∧
        t.squash (.num middle) (.num stop) column = .ok high ∧
        t.squash (.num start) (.num stop) column = .ok whole ∧
        CutInTwo i middle whole.rows (low.rows ++ high.rows) ∧
        whole.rows.countP (fun row => (stretchAt i row).any (covers middle)) = 1) := by
  constructor
  · intro t column i start middle stop ht hne hcolumn hlasts hrow hle hle'
    constructor
    · rintro ⟨hstart, hstop⟩
      exact Table.squash_append ht hne hcolumn hlasts hrow hstart hstop
        (Binary64.le_iff_scalar.mp hle) (Binary64.le_iff_scalar.mp hle')
    · intro hinfinite
      refine ⟨Table.squash_of_not_finite hinfinite column, ?_⟩
      rcases not_and_or.mp hinfinite with hstart | hstop
      · exact .inl (Table.squash_of_not_finite (fun h => hstart h.1) column)
      · exact .inr (Table.squash_of_not_finite (fun h => hstop h.2) column)
  · intro t column i ss first last start middle stop hcolumn hne h hstart hstop hfirst hlast hmiss
    exact Table.cutInTwo_squash hcolumn hne h hstart hstop hfirst hlast hmiss

/-- Three rows with a gap, squashed to windows that meet at the second one, and three rows without a
gap, squashed to windows that meet within the second one. -/
theorem Table.squash_adjacent_of_three_rows :
    let t : Table Float := ⟨["state", "delta"], [⟨0, [.text "a", .num 2]⟩,
      ⟨3, [.text "b", .num 1]⟩, ⟨4, [.text "c", .num 2]⟩]⟩
    let u : Table Exact := ⟨["state", "delta"], [⟨.num 0, [.text "a", .num (.num 2)]⟩,
      ⟨.num 2, [.text "b", .num (.num 1)]⟩, ⟨.num 3, [.text "c", .num (.num 4)]⟩]⟩
    let ss : List (Stretch (List (Cell Exact))) :=
      [⟨0, 2, [.text "a"]⟩, ⟨2, 3, [.text "b"]⟩, ⟨3, 7, [.text "c"]⟩]
    t.Valid ∧ t.LastsAt 1 ∧ Tiling 1 u.rows ss 0 7 ∧
      (∃ low high, t.squash 1 3 "delta" = .ok low ∧ t.squash 3 5 "delta" = .ok high ∧
        t.squash 1 5 "delta" = .ok { t with rows := low.rows ++ high.rows }) ∧
      ∃ low high whole, u.squash (.num 1) (.num (5 / 2)) "delta" = .ok low ∧
        u.squash (.num (5 / 2)) (.num 5) "delta" = .ok high ∧
        u.squash (.num 1) (.num 5) "delta" = .ok whole ∧
        CutInTwo 1 (5 / 2) whole.rows (low.rows ++ high.rows) ∧
        whole.rows.countP (fun row => (stretchAt 1 row).any (covers (5 / 2))) = 1 := by
  intro t u ss
  have ht : t.Valid := ⟨checkIndex_eq_ok.mp rfl, by decide, by decide⟩
  have hlasts : t.LastsAt 1 := by
    simp only [Table.LastsAt, t, List.forall_mem_cons]
    exact ⟨⟨2, rfl, by decide, by decide⟩, ⟨1, rfl, by decide, by decide⟩,
      ⟨2, rfl, by decide, by decide⟩, nofun⟩
  have htiling : Tiling 1 u.rows ss 0 7 := by
    constructor
    · norm_num [u, ss, stretchAt, cellAt, Cell.number?]
    · norm_num [ss, Tile]
  have hmiss : ∀ row ∈ u.rows, row.time ≠ .num (5 / 2) := by decide +kernel
  refine ⟨ht, hlasts, htiling, ?_, ?_⟩
  · exact (Table.squash_adjacent.1 t "delta" 1 1 3 5 ht (List.cons_ne_nil _ _) rfl hlasts
      (by decide) (by decide) (by decide)).1 (by decide)
  · exact Table.squash_adjacent.2 u "delta" 1 ss 0 7 1 (5 / 2) 5 rfl (List.cons_ne_nil _ _) htiling
      (by norm_num) (by norm_num) (by norm_num) (by norm_num) hmiss

end StepSignal
