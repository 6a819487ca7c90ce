import StepSignal.Proofs.Binary64.Neighbours
import StepSignal.Proofs.Cell
import StepSignal.Proofs.Table

/-!
# Interleaved signals

The rows of a signal are the rows of a table that have its key. Different signals have different
keys, so they share no row, and the rows that signals have at the start of a window can be put in
order of time.
-/

namespace StepSignal

open Scalar

/-! ## Keys -/

section Keys

variable {α : Type} [Scalar α] {t : Table α} {columns : List String} {positions : List Nat}

/-- The keys of the signals of a table: those that occur, or the empty key when nothing is told
apart. -/
def signalKeys (t : Table α) (columns : List String) (positions : List Nat) :
    List (List (Cell α)) :=
  if columns.isEmpty then [[]] else sortedKeys positions t.rows

/-- The signal of a key. -/
def signalOf (t : Table α) (columns : List String) (positions : List Nat) (key : List (Cell α)) :
    Signal α := ⟨columns.zip key, t.rowsOfKey positions key⟩

/-- The empty key is that of every row. -/
theorem rowsOfKey_nil (t : Table α) : t.rowsOfKey [] [] = t := by
  have htrue : ∀ row : CellRow α, Cell.sameAll (keyOf [] row) [] = true := fun _ => rfl
  rw [Table.rowsOfKey, List.filter_eq_self.mpr fun row _ => htrue row]

/-- Splitting gives the signals of all keys. -/
theorem Table.splitSignals_eq (h : t.positions columns = .ok positions) :
    t.splitSignals columns false
      = .ok ((signalKeys t columns positions).map (signalOf t columns positions)) := by
  unfold Table.splitSignals signalKeys
  rcases columns with - | ⟨column, columns⟩
  · obtain rfl : [] = positions := Except.ok.inj h
    simp only [List.isEmpty_nil, if_true, List.map_singleton, signalOf, rowsOfKey_nil]
    rfl
  · simp only [List.isEmpty_cons, Bool.false_eq_true, if_false, h, ok_bind]
    exact mapM_ok fun _ _ => rfl

theorem Table.positions_of_splitSignals {alignStart : Bool} {signals : List (Signal α)}
    (h : t.splitSignals columns alignStart = .ok signals) :
    ∃ positions, t.positions columns = .ok positions := by
  unfold Table.splitSignals at h
  rcases columns with - | ⟨column, columns⟩
  · exact ⟨[], rfl⟩
  · simp only [List.isEmpty_cons, Bool.false_eq_true, if_false] at h
    obtain ⟨positions, hpositions, -⟩ := bind_eq_ok.mp h
    exact ⟨positions, hpositions⟩

/-- The data of a signal are rows of the table. -/
theorem Table.Valid.signalOf [LawfulScalar α] (ht : t.Valid) (key : List (Cell α)) :
    (signalOf t columns positions key).data.Valid := ht.rowsOfKey positions key

variable [LawfulScalar α]

/-- The keys that occur do not repeat each other. -/
theorem nodup_sortedKeys (positions : List Nat) (rows : List (CellRow α)) :
    ((sortedKeys positions rows).map keyId).Nodup := by
  -- sorting moves the keys that occur first, and these do not repeat each other
  have hperm : (sortedKeys positions rows).Perm _ := List.mergeSort_perm _ _
  rw [(hperm.map keyId).nodup_iff, List.Nodup, List.pairwise_map]
  refine (firstOccurrences_pairwise Cell.sameAll _).imp fun {a b} hab heq => ?_
  rw [(Cell.sameAll_iff b a).mpr heq.symm] at hab
  cases hab

/-- Different signals have different keys. -/
theorem nodup_signalKeys (t : Table α) (columns : List String) (positions : List Nat) :
    ((signalKeys t columns positions).map keyId).Nodup := by
  unfold signalKeys
  split
  · simp
  · exact nodup_sortedKeys positions t.rows

end Keys

/-! ## Initial rows -/

section InitialRows

variable {w : Window Float} {first : Float} {signals : List (Signal Float)}
  {initial heads : List (CellRow Float)}

/-- The row that a signal has at the start of a window is the first one of its own window. -/
def Opens (w : Window Float) (s : Signal Float) (row : CellRow Float) : Prop :=
  ∃ rest, windowRows s.data.rows w .pre true = .ok (row :: rest)

/-- The first row of a window, as a table. -/
theorem window_slice_eq_ok {s : Signal Float} {head : Table Float} :
    (do (← s.data.window w .pre true).slice 0 1) = .ok head
      ↔ ∃ row, Opens w s row ∧ head = { s.data with rows := [row] } := by
  unfold Table.window Opens
  rcases windowRows s.data.rows w .pre true with _ | rows
  · simp
  · rcases rows with - | ⟨row, rest⟩
    · simp [Table.slice, Table.length]
    · simp [Table.slice, Table.length, Stamped.extract, eq_comm]

/-- The initial rows are the rows that the signals open with, where these are before the window, in
order of time. -/
theorem initialRows_eq_ok : initialRows signals w first = .ok initial ↔
    ∃ heads, List.Forall₂ (Opens w) signals heads ∧
      initial = (heads.filter fun row => row.time < first).mergeSort
        fun a b => a.time ≤ b.time := by
  unfold initialRows
  rw [bind_eq_ok]
  simp only [mapM_eq_ok, window_slice_eq_ok]
  constructor
  · rintro ⟨tables, htables, h⟩
    refine ⟨tables.flatMap (·.rows), ?_, (Except.ok.inj h).symm⟩
    clear h
    induction htables with
    | nil => exact .nil
    | cons hhead _ ih =>
      obtain ⟨row, hrow, rfl⟩ := hhead
      exact .cons hrow ih
  · rintro ⟨heads, hheads, rfl⟩
    have htables : ∃ tables : List (Table Float), List.Forall₂ (fun s head => ∃ row, Opens w s row ∧
        head = { s.data with rows := [row] }) signals tables ∧ tables.flatMap (·.rows) = heads := by
      induction hheads with
      | nil => exact ⟨[], .nil, rfl⟩
      | cons hrow _ ih =>
        obtain ⟨tables, htables, rfl⟩ := ih
        exact ⟨_ :: tables, .cons ⟨_, hrow, rfl⟩ htables, rfl⟩
    obtain ⟨tables, htables, rfl⟩ := htables
    exact ⟨tables, htables, rfl⟩

/-- Sorting by time puts rows in ascending order. -/
theorem pairwise_sortByTime {rows : List (CellRow Float)}
    (h : ∀ row ∈ rows, isMissing row.time = false) :
    (rows.mergeSort fun a b => a.time ≤ b.time).Pairwise fun a b =>
      toRat a.time ≤ toRat b.time := by
  -- the order of doubles is not total because of NaN, but these times are numbers
  have hsort : (rows.mergeSort fun a b => a.time ≤ b.time)
      = rows.mergeSort fun a b => toRat a.time ≤ toRat b.time := by
    have hmap := List.map_mergeSort (f := id) (l := rows)
      (r := fun a b : CellRow Float => decide (a.time ≤ b.time))
      (s := fun a b : CellRow Float => decide (toRat a.time ≤ toRat b.time)) fun a ha b hb =>
        decide_eq_decide.mpr (Binary64.le_iff_toRat (h a ha) (h b hb))
    simpa using hmap
  rw [hsort]
  have hsorted : (rows.mergeSort fun a b => toRat a.time ≤ toRat b.time).Pairwise fun a b =>
      decide (toRat a.time ≤ toRat b.time) = true := by
    refine List.pairwise_mergeSort (fun a b c hab hbc => ?_) (fun a b => ?_) rows
    · rw [decide_eq_true_eq] at *
      exact hab.trans hbc
    · simpa using le_total (toRat a.time) (toRat b.time)
  simpa using hsorted

/-- Rows at different times are ordered by sorting them. -/
theorem ordered_sortByTime {rows : List (CellRow Float)}
    (hfinite : ∀ row ∈ rows, isFinite row.time = true)
    (hdiffer : (rows.map fun row => toRat row.time).Nodup) :
    Ordered (Stamped.times (rows.mergeSort fun a b => a.time ≤ b.time)) := by
  have hperm := List.mergeSort_perm rows fun a b => decide (a.time ≤ b.time)
  have hsorted := pairwise_sortByTime fun row hrow =>
    LawfulScalar.isMissing_of_isFinite row.time (hfinite row hrow)
  rw [← (hperm.map _).nodup_iff, List.Nodup, List.pairwise_map] at hdiffer
  rw [ordered_iff, Stamped.times, List.pairwise_map]
  refine ⟨fun t ht => ?_, ?_⟩
  · obtain ⟨row, hrow, rfl⟩ := List.mem_map.mp ht
    exact hfinite row (hperm.mem_iff.mp hrow)
  · exact (hsorted.and hdiffer).imp fun h => lt_of_le_of_ne h.1 h.2

variable {t : Table Float} {columns : List String} {positions : List Nat}
  {keys : List (List (Cell Float))}

/-- The row that a signal opens with is one of its rows. -/
theorem Opens.mem {s : Signal Float} {row : CellRow Float} (h : Opens w s row) :
    row ∈ s.data.rows := by
  obtain ⟨rest, h⟩ := h
  exact (windowRows_sublist h).mem List.mem_cons_self

/-- The rows that the signals of some keys open with are rows of the table with these keys. -/
theorem keys_of_opens
    (h : List.Forall₂ (Opens w) (keys.map (signalOf t columns positions)) heads) :
    (heads.map fun row => keyId (keyOf positions row)) = keys.map keyId ∧
      ∀ row ∈ heads, row ∈ t.rows := by
  rw [List.forall₂_map_left_iff] at h
  induction h with
  | nil => exact ⟨rfl, fun _ hrow => nomatch hrow⟩
  | @cons key row keys heads hrow _ ih =>
    obtain ⟨hmem, hkey⟩ := List.mem_filter.mp hrow.mem
    rw [List.map_cons, List.map_cons, (Cell.sameAll_iff _ _).mp hkey, ih.1]
    exact ⟨rfl, List.forall_mem_cons.mpr ⟨hmem, ih.2⟩⟩

theorem eq_of_toRat_time_eq {rows : List (CellRow Float)} (h : Ordered (Stamped.times rows))
    {a b : CellRow Float} (ha : a ∈ rows) (hb : b ∈ rows) (heq : toRat a.time = toRat b.time) :
    a = b := by
  obtain ⟨i, hi⟩ := List.mem_iff_getElem?.mp ha
  obtain ⟨j, hj⟩ := List.mem_iff_getElem?.mp hb
  obtain rfl := h.eq_of_toRat_eq (Stamped.getElem?_times hi) (Stamped.getElem?_times hj) heq
  exact Option.some.inj (hi.symm.trans hj)

/-- Signals with different keys open at different times. -/
theorem nodup_times_of_opens (ht : t.Valid) (hkeys : (keys.map keyId).Nodup)
    (h : List.Forall₂ (Opens w) (keys.map (signalOf t columns positions)) heads) :
    (heads.map fun row => toRat row.time).Nodup := by
  obtain ⟨hids, hrows⟩ := keys_of_opens h
  rw [← hids, List.Nodup, List.pairwise_map] at hkeys
  rw [List.Nodup, List.pairwise_map]
  -- rows at one time are one row, which has one key
  refine hkeys.imp_of_mem fun ha hb hne heq => hne ?_
  rw [eq_of_toRat_time_eq ht.ordered (hrows _ ha) (hrows _ hb) heq]

/-- The initial rows of signals with different keys are ordered and come before the window. -/
theorem ordered_initialRows (ht : t.Valid) (hkeys : (keys.map keyId).Nodup)
    (h : initialRows (keys.map (signalOf t columns positions)) w first = .ok initial) :
    Ordered (Stamped.times initial) ∧ ∀ row ∈ initial, row ∈ t.rows ∧ row.time < first := by
  obtain ⟨heads, hheads, rfl⟩ := initialRows_eq_ok.mp h
  have hrows := (keys_of_opens hheads).2
  constructor
  · apply ordered_sortByTime
    · intro row hrow
      have hrow := hrows row (List.mem_filter.mp hrow).1
      exact ht.ordered.1 _ (List.mem_map_of_mem hrow)
    · exact (nodup_times_of_opens ht hkeys hheads).sublist (List.filter_sublist.map _)
  · intro row hrow
    obtain ⟨hrow, hlt⟩ := List.mem_filter.mp ((List.mergeSort_perm _ _).mem_iff.mp hrow)
    exact ⟨hrows row hrow, of_decide_eq_true hlt⟩

end InitialRows

/-! ## Times below the window -/

section TimesBelow

variable {first : Float} {k : Nat}

@[simp] theorem length_timesBelow (first : Float) (k : Nat) : (timesBelow first k).length = k := by
  induction k generalizing first with
  | zero => rfl
  | succ k ih => rw [timesBelow, List.length_append, ih, List.length_singleton]

/-- There are at least as many ranks below a finite time as there are ordered times before it. -/
theorem Ordered.length_le_rank {index : List Float} (h : Ordered index)
    (hfirst : first.isFinite = true) (hlt : ∀ t ∈ index, t < first) :
    -(Binary64.infinityMagnitude : Int) + 1 + index.length ≤ Binary64.rank first := by
  have hrank : ∀ {time : Float}, time.isFinite = true →
      -(Binary64.infinityMagnitude : Int) + 1 ≤ Binary64.rank time := fun htime => by
    have := Binary64.isFinite_iff_rank.mp htime
    omega
  refine Binary64.add_length_le_rank h.1 (h.pairwise.imp_of_mem ?_) hfirst hlt
    (fun time htime => hrank (h.1 time htime)) (hrank hfirst)
  intro a b ha hb hab
  exact of_decide_eq_true ((LawfulScalar.lt_iff a b).mpr
    ⟨h.isMissing_of_mem ha, h.isMissing_of_mem hb, hab⟩)

/-- As long as they are finite, the times below another one are before it. -/
theorem lt_of_mem_timesBelow (hfirst : first.isFinite = true)
    (h : ∀ t ∈ timesBelow first k, t.isFinite = true) : ∀ t ∈ timesBelow first k, t < first := by
  induction k generalizing first with
  | zero => simp [timesBelow]
  | succ k ih =>
    rw [timesBelow, List.forall_mem_append, List.forall_mem_singleton] at h ⊢
    have hlt := Binary64.below_lt hfirst
    refine ⟨fun t ht => ?_, hlt⟩
    have htb := ih h.2 h.1 t ht
    rw [Binary64.lt_iff_units] at *
    exact ⟨htb.1, hlt.2.1, htb.2.2.trans hlt.2.2⟩

/-- There are enough times below another one as long as there are enough ranks. -/
theorem ordered_timesBelow (hfirst : first.isFinite = true)
    (hk : -(Binary64.infinityMagnitude : Int) + 1 + k ≤ Binary64.rank first) :
    Ordered (timesBelow first k) := by
  induction k generalizing first with
  | zero => exact ⟨by simp [timesBelow], trivial⟩
  | succ k ih =>
    have hrank := Binary64.rank_below hfirst
    have hbelow := Binary64.isFinite_below hfirst (by push_cast at hk; omega)
    -- the other times are below the next double below, which takes one rank
    have hordered := ih hbelow (by push_cast at hk; omega)
    rw [timesBelow]
    refine hordered.append ⟨List.forall_mem_singleton.mpr hbelow, trivial⟩ fun s hs t ht => ?_
    obtain rfl := Option.some.inj ht
    have hlt := lt_of_mem_timesBelow hbelow hordered.1 s hs
    exact ((LawfulScalar.lt_iff s _).mp (decide_eq_true hlt)).2.2

end TimesBelow

/-! ## Windows of interleaved signals -/

section WindowSignals

variable {t windowed out : Table Float} {w : Window Float} {columns : List String}
  {positions : List Nat} {compress : Bool} {first start : Float}

/-- The keys of the signals that are alive at a time. -/
def aliveKeys (t : Table Float) (columns : List String) (positions : List Nat) (start : Float) :
    List (List (Cell Float)) :=
  (signalKeys t columns positions).filter fun key =>
    (signalOf t columns positions key).data.spans start

theorem nodup_aliveKeys (t : Table Float) (columns : List String) (positions : List Nat)
    (start : Float) : ((aliveKeys t columns positions start).map keyId).Nodup :=
  (nodup_signalKeys t columns positions).sublist (List.filter_sublist.map _)

/-- Initial rows as a table, at their own times or at the largest ones below `first`. -/
def openingTable (t : Table Float) (first : Float) (compress : Bool)
    (initial : List (CellRow Float)) : Outcome Float (Table Float) :=
  if compress then ({ t with rows := initial } : Table Float).withTimes
    (timesBelow first initial.length)
  else .ok { t with rows := initial }

/-- The windowed table with the initial rows of the signals that are alive. -/
theorem Table.windowSignals_eq (hpositions : t.positions columns = .ok positions)
    (hwindow : t.window w .pre true = .ok windowed) (hfirst : windowed.times.head? = some first)
    (hstart : w.start.or t.times.head? = some start) :
    t.windowSignals w columns compress
      = (do
        let initial ← initialRows
          ((aliveKeys t columns positions start).map (signalOf t columns positions)) w first
        let opening ← openingTable t first compress initial
        return { t with rows := opening.rows ++ windowed.rows }) := by
  have halive : ((signalKeys t columns positions).map (signalOf t columns positions)).filter
      (fun s => s.data.spans start)
        = (aliveKeys t columns positions start).map (signalOf t columns positions) := by
    rw [List.filter_map]
    rfl
  simp only [Table.windowSignals, t.splitSignals_eq hpositions, hwindow, ok_bind, hfirst, hstart,
    halive]
  cases compress <;> rfl

/-- Without a first row or a start there is nothing to put in front. -/
theorem Table.windowSignals_eq_window (hpositions : t.positions columns = .ok positions)
    (hwindow : t.window w .pre true = .ok windowed)
    (hnone : windowed.times.head? = none ∨ w.start.or t.times.head? = none) :
    t.windowSignals w columns compress = .ok windowed := by
  simp only [Table.windowSignals, t.splitSignals_eq hpositions, hwindow, ok_bind]
  rcases hnone with hnone | hnone <;> rw [hnone]
  · rfl
  · cases windowed.times.head? <;> rfl

/-- The opening table has the columns of the table, and its rows come before the window. -/
theorem Table.Valid.openingTable {initial : List (CellRow Float)} {opening : Table Float}
    (hinitial : ({ t with rows := initial } : Table Float).Valid) (hfirst : first.isFinite = true)
    (hbefore : ∀ row ∈ initial, row.time < first)
    (h : openingTable t first compress initial = .ok opening) :
    opening.Valid ∧ opening.names = t.names ∧ ∀ time ∈ opening.times, time < first := by
  cases compress with
  | false =>
    obtain rfl := Except.ok.inj h
    exact ⟨hinitial, rfl, List.forall_mem_map.mpr hbefore⟩
  | true =>
    have hvalid := hinitial.withTimes h
    obtain ⟨hlen, hordered, rfl⟩ := Table.withTimes_eq_ok.mp h
    refine ⟨hvalid, rfl, ?_⟩
    rw [Table.times, Stamped.times_retime _ _ hlen]
    exact lt_of_mem_timesBelow hfirst hordered.1

/-- The rows of a table can be put in front of those of another one that begins later. -/
theorem Table.Valid.append {opening : Table Float} (ho : opening.Valid) (hw : windowed.Valid)
    (honames : opening.names = t.names) (hwnames : windowed.names = t.names)
    (hfirst : windowed.times.head? = some first) (hlt : ∀ time ∈ opening.times, time < first) :
    ({ t with rows := opening.rows ++ windowed.rows } : Table Float).Valid := by
  refine ⟨?_, fun row hrow => ?_, honames ▸ ho.distinct⟩
  · rw [Table.times, Stamped.times, List.map_append]
    refine ho.ordered.append hw.ordered fun s hs time htime => ?_
    obtain rfl : first = time := Option.some.inj (hfirst.symm.trans htime)
    exact ((LawfulScalar.lt_iff s first).mp (decide_eq_true (hlt s hs))).2.2
  · rcases List.mem_append.mp hrow with hrow | hrow
    · exact honames ▸ ho.width row hrow
    · exact hwnames ▸ hw.width row hrow

theorem Table.Valid.windowSignals (ht : t.Valid)
    (h : t.windowSignals w columns compress = .ok out) : out.Valid := by
  have hsplit : ∃ signals, t.splitSignals columns false = .ok signals := by
    obtain ⟨signals, hsignals, -⟩ := bind_eq_ok.mp h
    exact ⟨signals, hsignals⟩
  obtain ⟨signals, hsplit⟩ := hsplit
  obtain ⟨positions, hpositions⟩ := Table.positions_of_splitSignals hsplit
  have hwindow : ∃ windowed, t.window w .pre true = .ok windowed := by
    obtain ⟨_, -, h⟩ := bind_eq_ok.mp h
    obtain ⟨windowed, hwindow, -⟩ := bind_eq_ok.mp h
    exact ⟨windowed, hwindow⟩
  obtain ⟨windowed, hwindow⟩ := hwindow
  have hvalid := ht.window hwindow
  rcases hfirst : windowed.times.head? with - | first
  · rw [Table.windowSignals_eq_window hpositions hwindow (.inl hfirst)] at h
    exact Except.ok.inj h ▸ hvalid
  rcases hstart : w.start.or t.times.head? with - | start
  · rw [Table.windowSignals_eq_window hpositions hwindow (.inr hstart)] at h
    exact Except.ok.inj h ▸ hvalid
  rw [Table.windowSignals_eq hpositions hwindow hfirst hstart] at h
  obtain ⟨initial, hinitial, h⟩ := bind_eq_ok.mp h
  have hkeys := nodup_aliveKeys t columns positions start
  obtain ⟨hordered, hbefore⟩ := ordered_initialRows ht hkeys hinitial
  have hinitial : ({ t with rows := initial } : Table Float).Valid :=
    ⟨hordered, fun row hrow => ht.width row (hbefore row hrow).1, ht.distinct⟩
  have hnames : windowed.names = t.names := by
    obtain ⟨rows, -, hrows⟩ := bind_eq_ok.mp hwindow
    exact Except.ok.inj hrows ▸ rfl
  have hfinite := hvalid.ordered.1 first (List.mem_of_head? hfirst)
  obtain ⟨opening, hopening, h⟩ := bind_eq_ok.mp h
  obtain rfl := Except.ok.inj h
  obtain ⟨ho, honames, hlt⟩ :=
    hinitial.openingTable hfinite (fun row hrow => (hbefore row hrow).2) hopening
  exact ho.append hvalid honames hnames hfirst hlt

end WindowSignals

end StepSignal
