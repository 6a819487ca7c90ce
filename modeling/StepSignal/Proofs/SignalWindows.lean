import StepSignal.Proofs.Signals

/-!
# Windows of interleaved signals

The window of a table of interleaved signals opens at the row in effect at its start, which is that
of one signal only. The row that another signal opens with is an earlier one, and is put in front.
So the rows of every signal that is alive are those of its own window.
-/

namespace StepSignal

open Scalar

/-! ## Kept elements -/

section Kept

variable {β γ : Type} {keep : β → Bool} {xs : List β}

/-- The last element that is kept is the last one, or one before it if the last one is not kept. -/
theorem getLast?_filter_cases {last kept : β} (hlast : xs.getLast? = some last)
    (hkept : (xs.filter keep).getLast? = some kept) :
    (keep last = true ∧ kept = last) ∨ (keep last = false ∧ kept ∈ xs.dropLast) := by
  obtain ⟨init, rfl⟩ := List.getLast?_eq_some_iff.mp hlast
  rw [List.filter_append, List.dropLast_concat] at *
  by_cases h : keep last = true
  · rw [List.filter_cons_of_pos h, List.filter_nil, List.getLast?_concat] at hkept
    exact .inl ⟨h, (Option.some.inj hkept).symm⟩
  · rw [List.filter_cons_of_neg h, List.filter_nil, List.append_nil] at hkept
    exact .inr ⟨by simpa using h, (List.mem_filter.mp (List.mem_of_getLast? hkept)).1⟩

/-- A test for the label of an element keeps this element only, when all labels differ. -/
theorem filter_eq_singleton {label : β → γ} {x : β} (h : (xs.map label).Nodup) (hx : x ∈ xs)
    (hkeep : ∀ y ∈ xs, keep y = true ↔ label y = label x) : xs.filter keep = [x] := by
  induction xs with
  | nil => cases hx
  | cons y ys ih =>
    rw [List.map_cons, List.nodup_cons] at h
    rw [List.forall_mem_cons] at hkeep
    rcases List.mem_cons.mp hx with rfl | hx
    · rw [List.filter_cons_of_pos (hkeep.1.mpr rfl), List.filter_eq_nil_iff.mpr]
      intro z hz hkept
      exact h.1 ((hkeep.2 z hz).mp hkept ▸ List.mem_map_of_mem hz)
    · have hne : label y ≠ label x := fun heq => h.1 (heq ▸ List.mem_map_of_mem hx)
      rw [List.filter_cons_of_neg (hne ∘ hkeep.1.mp), ih h.2 hx hkeep.2]

end Kept

/-! ## The rows of a signal -/

section Spans

variable {α : Type} [Scalar α] [LawfulScalar α] {t part : Table α} {w : Window α} {start : α}

omit [LawfulScalar α] in
theorem Table.spans_iff : t.spans start = true ↔
    ∃ first last, t.times.head? = some first ∧ t.times.getLast? = some last ∧
      le first start = true ∧ le start last = true := by
  rw [Table.spans, Bool.and_eq_true, Option.any_eq_true, Option.any_eq_true]
  constructor
  · rintro ⟨⟨first, hfirst, hlo⟩, last, hlast, hhi⟩
    exact ⟨first, last, hfirst, hlast, hlo, hhi⟩
  · rintro ⟨first, last, hfirst, hlast, hlo, hhi⟩
    exact ⟨⟨first, hfirst, hlo⟩, last, hlast, hhi⟩

/-- A table spans what a part of it spans. -/
theorem Table.Valid.spans (ht : t.Valid) (hpart : part.rows.Sublist t.rows)
    (h : part.spans start = true) : t.spans start = true := by
  obtain ⟨first, last, hfirst, hlast, hlo, hhi⟩ := Table.spans_iff.mp h
  have hmem : ∀ {time : α}, time ∈ part.times → time ∈ t.times := fun h =>
    (hpart.map _).mem h
  have hne : t.times ≠ [] := List.ne_nil_of_mem (hmem (List.mem_of_head? hfirst))
  have hhead := List.head?_eq_some_head hne
  have hgetLast := List.getLast?_eq_some_getLast hne
  obtain ⟨i, hi⟩ := List.mem_iff_getElem?.mp (hmem (List.mem_of_head? hfirst))
  obtain ⟨j, hj⟩ := List.mem_iff_getElem?.mp (hmem (List.mem_of_getLast? hlast))
  rw [le_iff] at hlo hhi
  refine Table.spans_iff.mpr ⟨_, _, hhead, hgetLast, ?_, ?_⟩
  · rw [le_iff]
    exact ⟨ht.ordered.isMissing_of_mem (List.mem_of_head? hhead), hlo.2.1,
      (ht.ordered.first_le hhead hi).trans hlo.2.2⟩
  · rw [le_iff]
    exact ⟨hhi.1, ht.ordered.isMissing_of_mem (List.mem_of_getLast? hgetLast),
      hhi.2.2.trans (ht.ordered.le_last hgetLast hj)⟩

/-- The window of a part that spans the start opens at the row in effect there. -/
theorem Table.Valid.windowRows_part (ht : t.Valid) (hpart : part.rows.Sublist t.rows)
    (hw : w.Proper) (hstart : w.start.or t.times.head? = some start)
    (h : part.spans start = true) :
    ∃ row, (part.rows.filter fun row => toRat row.time ≤ toRat start).getLast? = some row ∧
      windowRows part.rows w .pre true
        = .ok (row :: part.rows.filter (w.takes (toRat start))) := by
  obtain ⟨first, last, hfirst, hlast, hlo, hhi⟩ := Table.spans_iff.mp h
  have hordered : Ordered part.times := ht.ordered.sublist (hpart.map _)
  rw [le_iff] at hlo hhi
  have heq : toRat (w.start.getD first) = toRat start := by
    rcases hws : w.start with - | a
    · -- an unset start is the first time of the table, which no part begins before
      rw [hws, Option.none_or] at hstart
      obtain ⟨i, hi⟩ := List.mem_iff_getElem?.mp
        ((hpart.map _).mem (List.mem_of_head? hfirst))
      exact hlo.2.2.antisymm (ht.ordered.first_le hstart hi)
    · rw [hws, Option.some_or] at hstart
      rw [Option.getD_some, Option.some.inj hstart]
  have hpre := windowRows_pre hordered hfirst hlast hw (heq ▸ hlo.2.2) (heq ▸ hhi.2.2)
  rwa [heq] at hpre

/-- A window with bounds that are numbers selects rows of any valid table. -/
theorem Table.Valid.exists_window (ht : t.Valid) (hw : w.Proper) (rule : EdgeRule) :
    ∃ windowed, t.window w rule true = .ok windowed := by
  have hrows : ∃ rows, windowRows t.rows w rule true = .ok rows := by
    by_cases hnil : t.rows = []
    · rw [hnil]
      refine ⟨[], ?_⟩
      rw [windowRows, windowRange, hw.check]
      rfl
    · have hne : t.times ≠ [] := fun h => hnil (List.map_eq_nil_iff.mp h)
      obtain ⟨_, _, _, _, _, _, hc⟩ := exists_clipped ht.ordered hne hw rule
      exact ⟨_, hc.windowRows_eq⟩
  obtain ⟨rows, hrows⟩ := hrows
  rw [Table.window, hrows]
  exact ⟨_, rfl⟩

end Spans

section Alone

variable {t : Table Float} {w : Window Float} {start : Float} {columns : List String}
  {positions : List Nat}

/-- The rows that a test keeps have the window that they have alone, once the row that they open
with is put in front of the window of all rows, where it is earlier. -/
theorem Table.Valid.filter_window (ht : t.Valid) {keep takes : CellRow Float → Bool} {x : Rat}
    {row head : CellRow Float}
    (hrow : (t.rows.filter fun row => toRat row.time ≤ x).getLast? = some row)
    (hhead : ((t.rows.filter keep).filter fun row => toRat row.time ≤ x).getLast? = some head) :
    [head].filter (fun head => head.time < row.time)
        ++ (row :: t.rows.filter takes).filter keep
      = head :: (t.rows.filter keep).filter takes := by
  rw [List.filter_comm] at hhead
  have hordered : Ordered (Stamped.times (t.rows.filter fun row => toRat row.time ≤ x)) :=
    ht.ordered.sublist (List.filter_sublist.map _)
  rcases getLast?_filter_cases hrow hhead with ⟨hkeep, rfl⟩ | ⟨hkeep, hmem⟩
  · -- both open with the same row, which is there once
    have hself : ¬ head.time < head.time := fun h =>
      ((LawfulScalar.lt_iff head.time head.time).mp (decide_eq_true h)).2.2.false
    rw [List.filter_cons_of_neg (by simpa using hself), List.filter_nil, List.nil_append,
      List.filter_cons_of_pos hkeep, List.filter_comm]
  · -- the window of all rows opens with a later row, which is not kept
    obtain ⟨init, hinit⟩ := List.getLast?_eq_some_iff.mp hrow
    rw [hinit] at hordered hmem
    rw [List.dropLast_concat] at hmem
    have hbefore : Before head.time row.time := by
      have hpairwise := hordered.pairwise
      rw [Stamped.times, List.map_append, List.pairwise_append] at hpairwise
      exact hpairwise.2.2 _ (List.mem_map_of_mem hmem) _ List.mem_cons_self
    have hmissing : ∀ r ∈ init ++ [row], isMissing r.time = false := fun r hr =>
      hordered.isMissing_of_mem (List.mem_map_of_mem hr)
    have hlt : head.time < row.time := of_decide_eq_true
      ((LawfulScalar.lt_iff head.time row.time).mpr
        ⟨hmissing head (List.mem_append_left _ hmem), hmissing row (by simp), hbefore⟩)
    rw [List.filter_cons_of_pos (by simpa using hlt), List.filter_nil,
      List.filter_cons_of_neg (by simpa using hkeep), List.filter_comm]
    rfl

/-- Every signal that is alive opens with one of its rows. -/
theorem exists_heads (ht : t.Valid) (hw : w.Proper) (hstart : w.start.or t.times.head? = some start)
    {keys : List (List (Cell Float))}
    (hkeys : ∀ key ∈ keys, (signalOf t columns positions key).data.spans start = true) :
    ∃ heads, List.Forall₂ (Opens w) (keys.map (signalOf t columns positions)) heads := by
  refine exists_forall₂ (List.forall_mem_map.mpr fun key hkey => ?_)
  obtain ⟨head, -, hhead⟩ := ht.windowRows_part List.filter_sublist hw hstart (hkeys key hkey)
  exact ⟨head, _, hhead⟩

/-- Of the rows that are put in front of a window, those of a signal are the one it opens with,
where that row is earlier than the window. -/
theorem filter_initialRows {first : Float} {keys : List (List (Cell Float))}
    {key : List (Cell Float)} {heads : List (CellRow Float)} {head : CellRow Float}
    (hnodup : (keys.map keyId).Nodup)
    (hheads : List.Forall₂ (Opens w) (keys.map (signalOf t columns positions)) heads)
    (hmem : head ∈ heads) (hhead : Opens w (signalOf t columns positions key) head) :
    (((heads.filter fun row => row.time < first).mergeSort fun a b => a.time ≤ b.time).filter
        fun row => Cell.sameAll (keyOf positions row) key)
      = [head].filter fun row => row.time < first := by
  have hkey : keyId (keyOf positions head) = keyId key :=
    (Cell.sameAll_iff _ _).mp (List.mem_filter.mp hhead.mem).2
  have honly : (heads.filter fun row => Cell.sameAll (keyOf positions row) key) = [head] := by
    rw [← (keys_of_opens hheads).1] at hnodup
    exact filter_eq_singleton hnodup hmem fun row _ => hkey ▸ Cell.sameAll_iff _ _
  have hperm := (List.mergeSort_perm (heads.filter fun row => row.time < first)
    fun a b => decide (a.time ≤ b.time)).filter fun row => Cell.sameAll (keyOf positions row) key
  rw [List.filter_comm, honly] at hperm
  -- a permutation of at most one row is that row
  by_cases hlt : head.time < first
  · rw [List.filter_cons_of_pos (by simpa using hlt), List.filter_nil] at hperm ⊢
    exact List.perm_singleton.mp hperm
  · rw [List.filter_cons_of_neg (by simpa using hlt), List.filter_nil] at hperm ⊢
    exact List.perm_nil.mp hperm

/-- There are always enough times below the window for the rows that are put in front of it. -/
theorem exists_relabelled {first : Float} {initial : List (CellRow Float)}
    (hinitial : Ordered (Stamped.times initial)) (hfirst : first.isFinite = true)
    (hbefore : ∀ row ∈ initial, row.time < first) :
    ∃ relabelled, openingTable t first true initial = .ok { t with rows := relabelled } ∧
      Stamped.times relabelled = timesBelow first initial.length ∧
      relabelled.map (·.value) = initial.map (·.value) := by
  have hlen : (timesBelow first initial.length).length = initial.length := length_timesBelow _ _
  have hroom := hinitial.length_le_rank hfirst (List.forall_mem_map.mpr hbefore)
  rw [Stamped.length_times] at hroom
  exact ⟨_, Table.withTimes_eq_ok.mpr ⟨hlen, ordered_timesBelow hfirst hroom, rfl⟩,
    Stamped.times_retime initial _ hlen, Stamped.values_retime initial _ hlen⟩

/-- A key has a cell for every key column. -/
theorem length_of_mem_signalKeys (hpositions : t.positions columns = .ok positions)
    {key : List (Cell Float)} (hkey : key ∈ signalKeys t columns positions) :
    key.length = columns.length := by
  unfold signalKeys at hkey
  split at hkey
  · rename_i hnil
    rw [List.mem_singleton.mp hkey, List.isEmpty_iff.mp hnil]
    rfl
  · have hoccurs := (firstOccurrences_sublist _ _).mem ((List.mergeSort_perm _ _).mem_iff.mp hkey)
    obtain ⟨row, -, rfl⟩ := List.mem_map.mp hoccurs
    rw [keyOf, List.length_map]
    exact (mapM_eq_ok.mp hpositions).length_eq.symm

end Alone

/-- When all signals that are alive open with some row, these rows are put in front, where they are
earlier: in order of time, or with `compress` right below the window. -/
theorem exists_openingRows (ht : t.Valid) (hpositions : t.positions columns = .ok positions)
    {windowed : Table Float} {first : Float} (hwindow : t.window w .pre true = .ok windowed)
    (hfirst : windowed.times.head? = some first) (hstart : w.start.or t.times.head? = some start)
    {heads : List (CellRow Float)} (hheads : List.Forall₂ (Opens w)
      ((aliveKeys t columns positions start).map (signalOf t columns positions)) heads) :
    ∃ initial relabelled,
      initial = (heads.filter fun row => row.time < first).mergeSort (fun a b => a.time ≤ b.time) ∧
      Ordered (Stamped.times initial) ∧ (∀ row ∈ initial, row ∈ t.rows ∧ row.time < first) ∧
      Stamped.times relabelled = timesBelow first initial.length ∧
      relabelled.map (·.value) = initial.map (·.value) ∧
      t.windowSignals w columns false = .ok { t with rows := initial ++ windowed.rows } ∧
      t.windowSignals w columns true = .ok { t with rows := relabelled ++ windowed.rows } := by
  have hinitial : initialRows _ w first = .ok _ := initialRows_eq_ok.mpr ⟨heads, hheads, rfl⟩
  obtain ⟨hordered, hbefore⟩ :=
    ordered_initialRows ht (nodup_aliveKeys t columns positions start) hinitial
  have hfinite := (ht.window hwindow).ordered.1 first (List.mem_of_head? hfirst)
  obtain ⟨relabelled, hrelabelled, htimes, hvalues⟩ :=
    exists_relabelled (t := t) hordered hfinite fun row hrow => (hbefore row hrow).2
  refine ⟨_, relabelled, rfl, hordered, hbefore, htimes, hvalues, ?_, ?_⟩
  · rw [Table.windowSignals_eq hpositions hwindow hfirst hstart, hinitial]
    rfl
  · rw [Table.windowSignals_eq hpositions hwindow hfirst hstart, hinitial, ok_bind, hrelabelled]
    rfl

/-- The rows that are put in front of a window are those that the alive signals open with, where
these are earlier; with `compress` at other times. -/
theorem exists_initialRows (ht : t.Valid) (hw : w.Proper)
    (hpositions : t.positions columns = .ok positions) {windowed : Table Float} {first : Float}
    (hwindow : t.window w .pre true = .ok windowed) (hfirst : windowed.times.head? = some first)
    (hstart : w.start.or t.times.head? = some start) :
    ∃ heads initial relabelled, List.Forall₂ (Opens w)
        ((aliveKeys t columns positions start).map (signalOf t columns positions)) heads ∧
      initial = (heads.filter fun row => row.time < first).mergeSort (fun a b => a.time ≤ b.time) ∧
      t.windowSignals w columns false = .ok { t with rows := initial ++ windowed.rows } ∧
      t.windowSignals w columns true = .ok { t with rows := relabelled ++ windowed.rows } ∧
      relabelled.map (·.value) = initial.map (·.value) := by
  have hspans : ∀ key ∈ aliveKeys t columns positions start,
      (signalOf t columns positions key).data.spans start = true :=
    fun _ hkey => (List.mem_filter.mp hkey).2
  obtain ⟨heads, hheads⟩ := exists_heads ht hw hstart hspans
  obtain ⟨initial, relabelled, hinitial, -, -, -, hvalues, hplain, hcompressed⟩ :=
    exists_openingRows ht hpositions hwindow hfirst hstart hheads
  exact ⟨heads, initial, relabelled, hheads, hinitial, hplain, hcompressed, hvalues⟩

/-- The window of a signal that is alive has the rows of the signal, in front of the window of the
table and in it. -/
theorem window_eq_rowsOfKey (ht : t.Valid) (hw : w.Proper)
    (hstart : w.start.or t.times.head? = some start) {key : List (Cell Float)}
    (hspans : (signalOf t columns positions key).data.spans start = true) {windowed : Table Float}
    (hwindow : t.window w .pre true = .ok windowed) :
    ∃ first head, windowed.times.head? = some first ∧
      Opens w (signalOf t columns positions key) head ∧
      ∀ initial : List (CellRow Float),
        (initial.filter fun row => Cell.sameAll (keyOf positions row) key)
          = [head].filter (fun row => row.time < first) →
        (signalOf t columns positions key).data.window w .pre true
          = .ok (Table.rowsOfKey { t with rows := initial ++ windowed.rows } positions key) := by
  have hpart : (signalOf t columns positions key).data.rows.Sublist t.rows := List.filter_sublist
  obtain ⟨row, hrow, hrows⟩ :=
    ht.windowRows_part (List.Sublist.refl _) hw hstart (ht.spans hpart hspans)
  obtain ⟨head, hhead, hopens⟩ := ht.windowRows_part hpart hw hstart hspans
  rw [Table.window, hrows] at hwindow
  obtain rfl := Except.ok.inj hwindow
  refine ⟨row.time, head, rfl, ⟨_, hopens⟩, fun initial hinitial => ?_⟩
  rw [Table.window, hopens, Table.rowsOfKey, List.filter_append, hinitial]
  exact congrArg (fun rows => Except.ok { t with rows := rows })
    (ht.filter_window hrow hhead).symm

/-! ## Interleaved signals -/

/-- **Windowing interleaved signals windows every signal that is alive.** The window of the table
has some rows put in front; of these and the rows of the window, those of a signal are its own
window. With `compress` the rows in front differ in their times only. -/
theorem windowSignals_agrees {t : Table Float} (ht : t.Valid) {columns : List String}
    {positions : List Nat} (hpositions : t.positions columns = .ok positions) {w : Window Float}
    (hstart : ∀ a ∈ w.start, a.isNaN = false) (hstop : ∀ b ∈ w.stop, b.isNaN = false)
    (hle : ∀ a ∈ w.start, ∀ b ∈ w.stop, a ≤ b) :
    ∃ (signals : List (Signal Float)) (windowed : Table Float)
      (initial relabelled : List (CellRow Float)),
      t.splitSignals columns false = .ok signals ∧
      t.window w .pre true = .ok windowed ∧
      t.windowSignals w columns false = .ok { t with rows := initial ++ windowed.rows } ∧
      t.windowSignals w columns true = .ok { t with rows := relabelled ++ windowed.rows } ∧
      relabelled.map (·.value) = initial.map (·.value) ∧
      ∀ s ∈ signals, ∀ start ∈ w.start.or t.times.head?, s.data.spans start = true →
        s.data.window w .pre true
          = .ok (Table.rowsOfKey { t with rows := initial ++ windowed.rows } positions
              (s.key.map (·.2))) := by
  have hw : w.Proper := ⟨hstart, hstop, fun a ha b hb =>
    (Binary64.le_iff_toRat (hstart a ha) (hstop b hb)).mp (hle a ha b hb)⟩
  obtain ⟨windowed, hwindow⟩ := ht.exists_window hw .pre
  refine ⟨(signalKeys t columns positions).map (signalOf t columns positions), windowed, ?_⟩
  -- a signal that is alive, by its key
  have halive : ∀ {s start},
      s ∈ (signalKeys t columns positions).map (signalOf t columns positions) →
      s.data.spans start = true → ∃ key ∈ aliveKeys t columns positions start,
        s = signalOf t columns positions key ∧ s.key.map (·.2) = key := by
    intro s start hs hspans
    obtain ⟨key, hkey, rfl⟩ := List.mem_map.mp hs
    have hlen := (length_of_mem_signalKeys hpositions hkey).le
    exact ⟨key, List.mem_filter.mpr ⟨hkey, hspans⟩, rfl, List.map_snd_zip hlen⟩
  by_cases hnone : windowed.times.head? = none ∨ w.start.or t.times.head? = none
  · have hnames : ({ t with rows := windowed.rows } : Table Float) = windowed := by
      obtain ⟨rows, -, hrows⟩ := bind_eq_ok.mp hwindow
      exact Except.ok.inj hrows ▸ rfl
    have hsignals : ∀ compress, t.windowSignals w columns compress = .ok windowed := fun _ =>
      Table.windowSignals_eq_window hpositions hwindow hnone
    refine ⟨[], [], t.splitSignals_eq hpositions, hwindow, ?_, ?_, rfl, ?_⟩
    · rw [hsignals, List.nil_append, hnames]
    · rw [hsignals, List.nil_append, hnames]
    intro s hs start hstart hspans
    obtain ⟨key, hkey, rfl, -⟩ := halive hs hspans
    obtain ⟨first, _, hfirst, -⟩ := window_eq_rowsOfKey ht hw hstart hspans hwindow
    rcases hnone with hnone | hnone
    · cases hnone.symm.trans hfirst
    · cases hnone.symm.trans hstart
  · rw [not_or] at hnone
    obtain ⟨first, hfirst⟩ := Option.ne_none_iff_exists'.mp hnone.1
    obtain ⟨start, hstart⟩ := Option.ne_none_iff_exists'.mp hnone.2
    obtain ⟨heads, initial, relabelled, hheads, rfl, hplain, hcompressed, hvalues⟩ :=
      exists_initialRows ht hw hpositions hwindow hfirst hstart
    refine ⟨_, relabelled, t.splitSignals_eq hpositions, hwindow, hplain, hcompressed, hvalues, ?_⟩
    intro s hs start' hstart' hspans
    obtain rfl : start = start' := Option.some.inj (hstart.symm.trans hstart')
    obtain ⟨key, hkey, rfl, heq⟩ := halive hs hspans
    obtain ⟨first', head, hfirst', hopens, hrows⟩ :=
      window_eq_rowsOfKey ht hw hstart hspans hwindow
    obtain rfl : first = first' := Option.some.inj (hfirst.symm.trans hfirst')
    obtain ⟨opened, hmem, hopened⟩ := exists_of_mem_left hheads (List.mem_map_of_mem hkey)
    obtain rfl : head = opened := by
      obtain ⟨_, h⟩ := hopens
      obtain ⟨_, h'⟩ := hopened
      exact (List.cons.inj (Except.ok.inj (h.symm.trans h'))).1
    have hnodup := nodup_aliveKeys t columns positions start
    rw [heq, hrows _ (filter_initialRows hnodup hheads hmem hopens)]

/-- Two signals in turns, and a window that opens where `b` has the row in effect and `a` an earlier
one. -/
theorem windowSignals_agrees_of_two_signals :
    let t : Table Float := ⟨["task"], [⟨0, [.text "a"]⟩, ⟨1, [.text "b"]⟩, ⟨4, [.text "a"]⟩,
      ⟨5, [.text "b"]⟩]⟩
    let a : Table Float := ⟨["task"], [⟨0, [.text "a"]⟩, ⟨4, [.text "a"]⟩]⟩
    a.spans 3 = true ∧ ∃ out, t.windowSignals ⟨some 3, none⟩ ["task"] false = .ok out ∧
      a.window ⟨some 3, none⟩ .pre true = .ok (out.rowsOfKey [0] [.text "a"]) := by
  intro t a
  have hbuild : Table.ofColumns [0, 1, 4, 5]
      [⟨"task", [.text "a", .text "b", .text "a", .text "b"]⟩] = .ok t := by decide
  have ht : t.Valid := Table.valid_ofColumns hbuild
  have hspans : a.spans 3 = true := by decide
  have hpositions : t.positions ["task"] = .ok [0] := by decide
  obtain ⟨signals, _, _, _, hsignals, -, hout, -, -, hrows⟩ :=
    windowSignals_agrees ht hpositions (w := ⟨some 3, none⟩) (by decide) (by decide) (by decide)
  have hkey : [.text "a"] ∈ signalKeys t ["task"] [0] :=
    (List.mergeSort_perm _ _).mem_iff.mpr (by decide)
  obtain rfl := Except.ok.inj (hsignals.symm.trans (t.splitSignals_eq hpositions))
  exact ⟨hspans, _, hout, hrows (signalOf t ["task"] [0] [.text "a"]) (List.mem_map_of_mem hkey) 3
    rfl hspans⟩

end StepSignal
