import StepSignal.Proofs.Columns
import StepSignal.Proofs.InEffect
import StepSignal.Proofs.SignalWindows

/-!
# Rows in front of a window

Windowing interleaved signals succeeds for all bounds that are numbers. A window whose stop comes
before its start opens like the one that stops at the start, or it selects nothing, and what it does
for a table it does for every part of the table. So a signal that is alive has a row to open with
whenever the window of the table has one.

The rows that get other times are put on the largest doubles below the window. These are no earlier
than their own times, because ordered times before the window lie on different doubles.
-/

namespace StepSignal

open Scalar

/-! ## The largest times below a window -/

/-- The largest doubles below another one, in order: a double below `first` is equal to one of them
or below all of them. -/
structure LargestBelow (first : Float) (times : List Float) : Prop where
  ordered : Ordered times
  lt : ∀ t ∈ times, t < first
  largest : ∀ x, x < first → (∃ t ∈ times, (x == t) = true) ∨ ∀ t ∈ times, x < t

section LargestBelow

variable {first : Float} {k : Nat}

/-- The times below another one have the ranks below its rank. -/
theorem exists_rank_timesBelow (hfirst : first.isFinite = true)
    (hroom : -(Binary64.infinityMagnitude : Int) + 1 + k ≤ Binary64.rank first) {r : Int} :
    (∃ t ∈ timesBelow first k, Binary64.rank t = r) ↔
      Binary64.rank first - k ≤ r ∧ r < Binary64.rank first := by
  induction k generalizing first with
  | zero =>
    simp only [timesBelow, List.not_mem_nil, false_and, exists_false, false_iff]
    push_cast
    omega
  | succ k ih =>
    have hbelow := Binary64.isFinite_below hfirst (by push_cast at hroom; omega)
    have hrank := Binary64.rank_below hfirst
    have hrest := ih hbelow (by push_cast at hroom; omega)
    simp only [timesBelow, List.mem_append, List.mem_singleton, or_and_right, exists_or,
      exists_eq_left, hrest, hrank]
    push_cast
    omega

theorem largestBelow_timesBelow (hfirst : first.isFinite = true)
    (hroom : -(Binary64.infinityMagnitude : Int) + 1 + k ≤ Binary64.rank first) :
    LargestBelow first (timesBelow first k) := by
  have hordered := ordered_timesBelow hfirst hroom
  refine ⟨hordered, lt_of_mem_timesBelow hfirst hordered.1, fun x hx => ?_⟩
  obtain ⟨hxnum, hfnum, -⟩ := Binary64.lt_iff_units.mp hx
  have hnumber : ∀ t ∈ timesBelow first k, t.isNaN = false := fun t ht =>
    Binary64.isNaN_of_isFinite (hordered.1 t ht)
  have hranks := @exists_rank_timesBelow first k hfirst hroom
  -- a double below `first` either has the rank of one of the times or comes before all these ranks
  by_cases hin : Binary64.rank first - k ≤ Binary64.rank x
  · obtain ⟨t, ht, hrank⟩ := hranks.mpr ⟨hin, (Binary64.lt_iff_rank hxnum hfnum).mp hx⟩
    exact .inl ⟨t, ht, (Binary64.beq_iff_rank hxnum (hnumber t ht)).mpr hrank.symm⟩
  · refine .inr fun t ht => (Binary64.lt_iff_rank hxnum (hnumber t ht)).mpr ?_
    have := (hranks.mp ⟨t, ht, rfl⟩).1
    omega

/-- Ordered times before another one are no later than the largest doubles below it. -/
theorem Ordered.forall₂_timesBelow {index : List Float} (h : Ordered index)
    (hfirst : first.isFinite = true) (hlt : ∀ t ∈ index, t < first) :
    List.Forall₂ (· ≤ ·) index (timesBelow first index.length) := by
  induction index using List.reverseRecOn generalizing first with
  | nil => exact .nil
  | append_singleton init last ih =>
    rw [List.forall_mem_append, List.forall_mem_singleton] at hlt
    have hroom := h.length_le_rank hfirst (List.forall_mem_append.mpr
      ⟨hlt.1, List.forall_mem_singleton.mpr hlt.2⟩)
    rw [List.length_append, List.length_singleton] at hroom ⊢
    have hbelow := Binary64.isFinite_below hfirst (by push_cast at hroom; omega)
    have hbnum := Binary64.isNaN_of_isFinite hbelow
    have hlast : last.isFinite = true := h.1 last (by simp)
    have hlnum := Binary64.isNaN_of_isFinite hlast
    -- the last time has a smaller rank than `first`, so no larger one than the next double below
    have hrank : Binary64.rank last ≤ Binary64.rank (Binary64.below first) := by
      have := (Binary64.lt_iff_rank hlnum (Binary64.isNaN_of_isFinite hfirst)).mp hlt.2
      rw [Binary64.rank_below hfirst]
      omega
    have hinit : ∀ t ∈ init, t < Binary64.below first := by
      intro t ht
      have htnum := Binary64.isNaN_of_isFinite (h.1 t (List.mem_append_left _ ht))
      have hbefore : Before t last :=
        (List.pairwise_append.mp h.pairwise).2.2 t ht last (List.mem_singleton_self _)
      have := (Binary64.lt_iff_rank htnum hlnum).mp
        (of_decide_eq_true ((LawfulScalar.lt_iff t last).mpr ⟨htnum, hlnum, hbefore⟩))
      exact (Binary64.lt_iff_rank htnum hbnum).mpr (by omega)
    rw [timesBelow]
    exact List.rel_append (ih (h.sublist (List.sublist_append_left _ _)) hbelow hinit)
      (.cons ((Binary64.le_iff_rank hlnum hbnum).mpr hrank) .nil)

end LargestBelow

/-! ## Reversed windows -/

section Reversed

variable {α β : Type} [Scalar α] [LawfulScalar α] {index : List α} {rows : List (Stamped α β)}
  {start stop : α}

/-- Going back from `start` to `stop` passes no time, or there is none before `start`. -/
def PassesNone (index : List α) (start stop : α) : Prop :=
  (∀ t ∈ index, toRat start ≤ toRat t) ∨
    ∀ t ∈ index, toRat t ≤ toRat start → toRat t ≤ toRat stop

theorem PassesNone.sublist {part : List α} (h : PassesNone index start stop)
    (hpart : part.Sublist index) : PassesNone part start stop :=
  h.imp (fun h t ht => h t (hpart.mem ht)) fun h t ht => h t (hpart.mem ht)

omit [LawfulScalar α] in
theorem Window.check_of_numbers (hstart : isMissing start = false)
    (hstop : isMissing stop = false) : (⟨some start, some stop⟩ : Window α).check = .ok () := by
  simp [Window.check, hstart, hstop]

/-- A window that starts after the first time and stops before the last one is clipped to itself. -/
theorem Window.clip_inside {first last : α} (hstart : isMissing start = false)
    (hstop : isMissing stop = false) (hf : isMissing first = false) (hl : isMissing last = false)
    (hfirst : toRat first < toRat start) (hlast : toRat stop < toRat last) :
    (⟨some start, some stop⟩ : Window α).clip first last = ⟨some start, some stop⟩ := by
  have hmax : Scalar.max start first = start := by
    rcases max_cases hstart hf with ⟨heq, -⟩ | ⟨-, hle⟩
    · exact heq
    · exact absurd hfirst hle.not_gt
  have hmin : Scalar.min stop last = stop := by
    rcases min_cases hstop hl with ⟨heq, -⟩ | ⟨-, hle⟩
    · exact heq
    · exact absurd hlast hle.not_gt
  simp [Window.clip, le_eq, hstart, hstop, hf, hl, hfirst.not_ge, hlast.not_ge, hmax, hmin]

/-- A reversed window that passes no time opens like the one that stops at the start. -/
theorem windowRange_of_passesNone (h : Ordered index) (hstart : isMissing start = false)
    (hstop : isMissing stop = false) (hlt : toRat stop < toRat start)
    (hnone : PassesNone index start stop) :
    windowRange index ⟨some start, some stop⟩ .pre true
      = windowRange index ⟨some start, some start⟩ .pre true := by
  have hcheck := Window.check_of_numbers hstart hstop
  have hcheck' := Window.check_of_numbers hstart hstart
  by_cases hnil : index = []
  · simp [windowRange, hcheck, hcheck', hnil]
  have hfirst := List.head?_eq_some_head hnil
  have hlast := List.getLast?_eq_some_getLast hnil
  generalize index.head hnil = first at hfirst
  generalize index.getLast hnil = last at hlast
  have hf := h.isMissing_of_mem (List.mem_of_head? hfirst)
  have hl := h.isMissing_of_mem (List.mem_of_getLast? hlast)
  simp only [windowRange, hcheck, hcheck', ok_bind, hfirst, hlast, if_true]
  by_cases hbefore : toRat start ≤ toRat first
  · -- both windows lie before the first time
    simp [Window.clip, le_eq, hstart, hstop, hf, hbefore, hlt.le.trans hbefore]
  by_cases hafter : toRat last ≤ toRat stop
  · -- both windows lie after the last time
    simp [Window.clip, le_eq, hstart, hstop, hf, hl, hbefore, hafter, hafter.trans hlt.le]
  rw [not_le] at hbefore hafter
  have hpass := hnone.resolve_left fun hall =>
    (hall first (List.mem_of_head? hfirst)).not_gt hbefore
  have hinside : toRat start < toRat last := by
    by_contra hge
    exact (hpass last (List.mem_of_getLast? hlast) (not_lt.mp hge)).not_gt hafter
  -- no time is passed, so padding finds one row for both bounds
  have hle : ∀ t ∈ index, le t start = le t stop := fun t ht => by
    have hnumber := h.isMissing_of_mem ht
    rw [le_eq hnumber hstart, le_eq hnumber hstop]
    exact decide_eq_decide.mpr ⟨hpass t ht, fun hle => hle.trans hlt.le⟩
  have hlocate := h.locate_pad_congr hle
  obtain ⟨p, hp⟩ := h.exists_locate hstart hfirst hlast hbefore.le hinside.le .pad
  simp only [Window.clip_inside hstart hstop hf hl hbefore hafter,
    Window.clip_inside hstart hstart hf hl hbefore hinside, openingRow, closingRow,
    EdgeRule.startSeek, EdgeRule.stopSeek, ← hlocate, hp]

/-- A reversed window that passes a time, with one before the start, selects nothing. -/
theorem windowRange_of_passes (h : Ordered index) (hstart : isMissing start = false)
    (hstop : isMissing stop = false) (hpasses : ¬ PassesNone index start stop) :
    windowRange index ⟨some start, some stop⟩ .pre true = .ok (0, 0) := by
  obtain ⟨⟨s, hs, hsstart⟩, t, ht, htstart, hstopt⟩ : (∃ s ∈ index, toRat s < toRat start) ∧
      ∃ t ∈ index, toRat t ≤ toRat start ∧ toRat stop < toRat t := by
    unfold PassesNone at hpasses
    push Not at hpasses
    exact hpasses
  have hnil : index ≠ [] := List.ne_nil_of_mem hs
  have hfirst := List.head?_eq_some_head hnil
  have hlast := List.getLast?_eq_some_getLast hnil
  generalize index.head hnil = first at hfirst
  generalize index.getLast hnil = last at hlast
  have hf := h.isMissing_of_mem (List.mem_of_head? hfirst)
  have hl := h.isMissing_of_mem (List.mem_of_getLast? hlast)
  obtain ⟨i, hi⟩ := List.mem_iff_getElem?.mp hs
  obtain ⟨j, hj⟩ := List.mem_iff_getElem?.mp ht
  have hbefore := (h.first_le hfirst hi).trans_lt hsstart
  have hafter := hstopt.trans_le (h.le_last hlast hj)
  obtain ⟨n, -, hstart_iff, hlocate⟩ := h.exists_locate_pad start
  obtain ⟨m, -, hstop_iff, hlocate'⟩ := h.exists_locate_pad stop
  have hjn : j < n := (hstart_iff j t hj).mp
    ((le_iff t start).mpr ⟨h.isMissing_of_mem ht, hstart, htstart⟩)
  have hmj : m ≤ j := by
    by_contra hlt
    exact (((le_iff t stop).mp ((hstop_iff j t hj).mpr (not_le.mp hlt))).2.2).not_gt hstopt
  rw [if_neg (by omega)] at hlocate
  simp only [windowRange, Window.check_of_numbers hstart hstop, ok_bind, hfirst, hlast, if_true,
    Window.clip_inside hstart hstop hf hl hbefore hafter, openingRow, closingRow,
    EdgeRule.startSeek, EdgeRule.stopSeek, hlocate, hlocate']
  -- the window would close before it opens, or not at all
  by_cases hm : m = 0
  · simp only [hm, if_true, lt_eq hl hstop, hafter.not_gt, decide_false, Bool.false_eq_true, if_false]
    rfl
  · simp only [hm, if_false, show ¬ n - 1 ≤ m - 1 by omega]
    rfl

theorem windowRows_of_passesNone (h : Ordered (Stamped.times rows))
    (hstart : isMissing start = false) (hstop : isMissing stop = false)
    (hlt : toRat stop < toRat start) (hnone : PassesNone (Stamped.times rows) start stop) :
    windowRows rows ⟨some start, some stop⟩ .pre true
      = windowRows rows ⟨some start, some start⟩ .pre true := by
  rw [windowRows, windowRows, windowRange_of_passesNone h hstart hstop hlt hnone]

theorem windowRows_of_passes (h : Ordered (Stamped.times rows)) (hstart : isMissing start = false)
    (hstop : isMissing stop = false) (hpasses : ¬ PassesNone (Stamped.times rows) start stop) :
    windowRows rows ⟨some start, some stop⟩ .pre true = .ok [] := by
  rw [windowRows, windowRange_of_passes h hstart hstop hpasses, ok_bind]
  rfl

theorem Window.proper_at (hstart : isMissing start = false) :
    (⟨some start, some start⟩ : Window α).Proper where
  start a ha := Option.mem_some.mp ha ▸ hstart
  stop b hb := Option.mem_some.mp hb ▸ hstart
  le a ha b hb := by
    rw [← Option.mem_some.mp ha, ← Option.mem_some.mp hb]

/-- Bounds that are numbers are in order or reversed. -/
theorem Window.proper_or_reversed {w : Window α} (hstart : ∀ a ∈ w.start, isMissing a = false)
    (hstop : ∀ b ∈ w.stop, isMissing b = false) :
    w.Proper ∨ ∃ start stop, w = ⟨some start, some stop⟩ ∧ isMissing start = false ∧
      isMissing stop = false ∧ toRat stop < toRat start := by
  by_cases hle : ∀ a ∈ w.start, ∀ b ∈ w.stop, toRat a ≤ toRat b
  · exact .inl ⟨hstart, hstop, hle⟩
  · push Not at hle
    obtain ⟨a, ha, b, hb, hlt⟩ := hle
    obtain ⟨start, stop⟩ := w
    obtain rfl := Option.mem_def.mp ha
    obtain rfl := Option.mem_def.mp hb
    exact .inr ⟨a, b, rfl, hstart a ha, hstop b hb, hlt⟩

/-- A window with bounds that are numbers, in whatever order, selects rows of any valid table. -/
theorem Table.Valid.exists_window_pre {t : Table α} (ht : t.Valid) {w : Window α}
    (hstart : ∀ a ∈ w.start, isMissing a = false) (hstop : ∀ b ∈ w.stop, isMissing b = false) :
    ∃ windowed, t.window w .pre true = .ok windowed := by
  rcases Window.proper_or_reversed hstart hstop with hw | ⟨start, stop, rfl, ha, hb, hlt⟩
  · exact ht.exists_window hw .pre
  by_cases hnone : PassesNone t.times start stop
  · rw [Table.window, windowRows_of_passesNone ht.ordered ha hb hlt hnone]
    exact ht.exists_window (Window.proper_at ha) .pre
  · rw [Table.window, windowRows_of_passes ht.ordered ha hb hnone]
    exact ⟨_, rfl⟩

end Reversed

/-! ## Rows in front -/

/-- The rows that are put in front of a window: those that the signals alive at its start open with,
where they are earlier, in order of time; and the same rows at the largest times below the window,
none of them moved back. -/
structure Openings (t : Table Float) (w : Window Float) (signals : List (Signal Float))
    (windowed : Table Float) (initial relabelled : List (CellRow Float)) : Prop where
  mem_iff : ∀ row, row ∈ initial ↔ ∃ first ∈ windowed.times.head?, row.time < first ∧
    ∃ start ∈ w.start.or t.times.head?, ∃ s ∈ signals, s.data.spans start = true ∧ Opens w s row
  historical : ∀ row ∈ initial, row ∈ t.rows
  ordered : Ordered (Stamped.times initial)
  relabels : List.Forall₂ (fun row moved => moved.value = row.value ∧ row.time ≤ moved.time)
    initial relabelled
  largest : relabelled ≠ [] →
    ∃ first ∈ windowed.times.head?, LargestBelow first (Stamped.times relabelled)

section Openings

variable {t windowed : Table Float} {w : Window Float} {columns : List String}
  {positions : List Nat} {first start : Float}

/-- A signal that is alive opens with a row when the window of the table has one. -/
theorem Table.Valid.exists_opens (ht : t.Valid) (hstart : ∀ a ∈ w.start, isMissing a = false)
    (hstop : ∀ b ∈ w.stop, isMissing b = false) (hwindow : t.window w .pre true = .ok windowed)
    (hfirst : windowed.times.head? = some first) (hor : w.start.or t.times.head? = some start)
    {key : List (Cell Float)} (hkey : key ∈ aliveKeys t columns positions start) :
    ∃ row, Opens w (StepSignal.signalOf t columns positions key) row := by
  have hspans := (List.mem_filter.mp hkey).2
  have hpart : (StepSignal.signalOf t columns positions key).data.rows.Sublist t.rows :=
    List.filter_sublist
  rcases Window.proper_or_reversed hstart hstop with hw | ⟨a, b, rfl, ha, hb, hlt⟩
  · obtain ⟨row, -, hrow⟩ := ht.windowRows_part hpart hw hor hspans
    exact ⟨row, _, hrow⟩
  -- the window of the table has a row, so it passes no row of the table, and none of the signal
  have hnone : PassesNone t.times a b := by
    by_contra hpasses
    rw [Table.window, windowRows_of_passes ht.ordered ha hb hpasses, ok_bind] at hwindow
    obtain rfl := Except.ok.inj hwindow
    cases hfirst
  obtain ⟨row, -, hrow⟩ := ht.windowRows_part hpart (Window.proper_at ha) hor hspans
  refine ⟨row, _, Eq.trans ?_ hrow⟩
  exact windowRows_of_passesNone (ht.ordered.sublist (hpart.map _)) ha hb hlt
    (hnone.sublist (hpart.map _))

/-- The rows that alive signals open with, where they are earlier than the window, are those that are
put in front of it. -/
theorem mem_initialRows_iff {heads : List (CellRow Float)} (hheads : List.Forall₂ (Opens w)
      ((aliveKeys t columns positions start).map (signalOf t columns positions)) heads)
    {row : CellRow Float} :
    row ∈ (heads.filter fun row => row.time < first).mergeSort (fun a b => a.time ≤ b.time) ↔
      row.time < first ∧ ∃ s ∈ (signalKeys t columns positions).map (signalOf t columns positions),
        s.data.spans start = true ∧ Opens w s row := by
  rw [(List.mergeSort_perm _ _).mem_iff, List.mem_filter, decide_eq_true_eq, and_comm]
  refine and_congr_right fun _ => ?_
  have halive : ∀ s, s ∈ (aliveKeys t columns positions start).map (signalOf t columns positions) ↔
      s ∈ (signalKeys t columns positions).map (signalOf t columns positions) ∧
        s.data.spans start = true := by
    intro s
    simp only [aliveKeys, List.mem_map, List.mem_filter]
    constructor
    · rintro ⟨key, ⟨hkey, hspans⟩, rfl⟩
      exact ⟨⟨key, hkey, rfl⟩, hspans⟩
    · rintro ⟨⟨key, hkey, rfl⟩, hspans⟩
      exact ⟨key, ⟨hkey, hspans⟩, rfl⟩
  constructor
  · intro hrow
    obtain ⟨s, hs, hopens⟩ := exists_of_mem_right hheads hrow
    exact ⟨s, ((halive s).mp hs).1, ((halive s).mp hs).2, hopens⟩
  · rintro ⟨s, hs, hspans, rest, hopens⟩
    obtain ⟨head, hhead, _, hopens'⟩ := exists_of_mem_left hheads ((halive s).mpr ⟨hs, hspans⟩)
    rw [hopens] at hopens'
    exact (List.cons.inj (Except.ok.inj hopens')).1 ▸ hhead

/-- **Windowing interleaved signals is total and keeps the index ordered.** For bounds that are
numbers, in whatever order, the rows of the window follow those that the alive signals open with,
which are at their own times or at the largest ones below the window. -/
theorem windowSignals_total {t : Table Float} (ht : t.Valid) {columns : List String}
    (hcolumns : ∀ column ∈ columns, column ∈ t.names) {w : Window Float}
    (hstart : ∀ a ∈ w.start, a.isNaN = false) (hstop : ∀ b ∈ w.stop, b.isNaN = false) :
    ∃ signals windowed initial relabelled,
      t.splitSignals columns false = .ok signals ∧
      t.window w .pre true = .ok windowed ∧
      t.windowSignals w columns false = .ok { t with rows := initial ++ windowed.rows } ∧
      t.windowSignals w columns true = .ok { t with rows := relabelled ++ windowed.rows } ∧
      Ordered (Stamped.times (initial ++ windowed.rows)) ∧
      Ordered (Stamped.times (relabelled ++ windowed.rows)) ∧
      Openings t w signals windowed initial relabelled := by
  obtain ⟨positions, hpositions⟩ := Table.exists_positions hcolumns
  obtain ⟨windowed, hwindow⟩ := ht.exists_window_pre hstart hstop
  suffices ∃ initial relabelled,
      t.windowSignals w columns false = .ok { t with rows := initial ++ windowed.rows } ∧
      t.windowSignals w columns true = .ok { t with rows := relabelled ++ windowed.rows } ∧
      Openings t w ((signalKeys t columns positions).map (signalOf t columns positions)) windowed
        initial relabelled by
    obtain ⟨initial, relabelled, hplain, hcompressed, hopenings⟩ := this
    exact ⟨_, windowed, initial, relabelled, t.splitSignals_eq hpositions, hwindow, hplain,
      hcompressed, (ht.windowSignals hplain).ordered, (ht.windowSignals hcompressed).ordered,
      hopenings⟩
  by_cases hnone : windowed.times.head? = none ∨ w.start.or t.times.head? = none
  · -- nothing is put in front of a window without rows, or of one of a table without rows
    have hnames : ({ t with rows := windowed.rows } : Table Float) = windowed := by
      obtain ⟨rows, -, hrows⟩ := bind_eq_ok.mp hwindow
      exact Except.ok.inj hrows ▸ rfl
    have hsignals : ∀ compress, t.windowSignals w columns compress
        = .ok { t with rows := [] ++ windowed.rows } := fun compress => by
      rw [Table.windowSignals_eq_window hpositions hwindow hnone, List.nil_append, hnames]
    refine ⟨[], [], hsignals false, hsignals true, ?_, nofun, ⟨nofun, trivial⟩, .nil, nofun⟩
    refine fun row => iff_of_false (List.not_mem_nil) ?_
    rintro ⟨first, hfirst, -, start, hstart, -⟩
    rcases hnone with hnone | hnone
    · cases hnone.symm.trans hfirst
    · cases hnone.symm.trans hstart
  rw [not_or] at hnone
  obtain ⟨first, hfirst⟩ := Option.ne_none_iff_exists'.mp hnone.1
  obtain ⟨start, hor⟩ := Option.ne_none_iff_exists'.mp hnone.2
  have hopens : ∀ key ∈ aliveKeys t columns positions start,
      ∃ row, Opens w (StepSignal.signalOf t columns positions key) row :=
    fun _ hkey => ht.exists_opens hstart hstop hwindow hfirst hor hkey
  obtain ⟨heads, hheads⟩ := exists_forall₂ (List.forall_mem_map.mpr hopens)
  obtain ⟨initial, relabelled, hinitial, hordered, hbefore, htimes, hvalues, hplain, hcompressed⟩ :=
    exists_openingRows ht hpositions hwindow hfirst hor hheads
  have hfinite := (ht.window hwindow).ordered.1 first (List.mem_of_head? hfirst)
  have hlt : ∀ time ∈ Stamped.times initial, time < first :=
    List.forall_mem_map.mpr fun row hrow => (hbefore row hrow).2
  have hroom := hordered.length_le_rank hfinite hlt
  have hlater := hordered.forall₂_timesBelow hfinite hlt
  rw [Stamped.length_times] at hroom hlater
  refine ⟨initial, relabelled, hplain, hcompressed, ?_, fun row hrow => (hbefore row hrow).1,
    hordered, ?_, fun _ => ⟨first, hfirst, htimes ▸ largestBelow_timesBelow hfinite hroom⟩⟩
  · intro row
    rw [hinitial, mem_initialRows_iff hheads]
    simp only [Option.mem_def, hfirst, hor, Option.some.injEq, exists_eq_left']
  · have hmoved : List.Forall₂ (fun row moved => moved.value = row.value) initial relabelled := by
      rw [← List.forall₂_eq_eq_eq, List.forall₂_map_left_iff, List.forall₂_map_right_iff] at hvalues
      exact hvalues.flip
    rw [← htimes, Stamped.times, Stamped.times, List.forall₂_map_left_iff,
      List.forall₂_map_right_iff] at hlater
    exact .mp (fun _ _ => And.intro) hmoved hlater

/-- A window that stops before it starts, between the same two rows: it opens with the row of `b` in
effect there, in front of which the earlier row of `a` is put. -/
theorem windowSignals_total_of_reversed :
    let t : Table Float := ⟨["task"], [⟨0, [.text "a"]⟩, ⟨1, [.text "b"]⟩, ⟨4, [.text "a"]⟩,
      ⟨5, [.text "b"]⟩]⟩
    let w : Window Float := ⟨some 3, some 2⟩
    t.Valid ∧ (∀ column ∈ ["task"], column ∈ t.names) ∧ (∀ a ∈ w.start, a.isNaN = false) ∧
      (∀ b ∈ w.stop, b.isNaN = false) ∧
      ∃ signals windowed initial relabelled,
        t.splitSignals ["task"] false = .ok signals ∧
        t.window w .pre true = .ok windowed ∧
        t.windowSignals w ["task"] false = .ok { t with rows := initial ++ windowed.rows } ∧
        t.windowSignals w ["task"] true = .ok { t with rows := relabelled ++ windowed.rows } ∧
        Ordered (Stamped.times (initial ++ windowed.rows)) ∧
        Ordered (Stamped.times (relabelled ++ windowed.rows)) ∧
        Openings t w signals windowed initial relabelled := by
  intro t w
  have ht : t.Valid := ⟨checkIndex_eq_ok.mp rfl, by decide, by decide⟩
  have hcolumns : ∀ column ∈ ["task"], column ∈ t.names := by decide
  have hstart : ∀ a ∈ w.start, a.isNaN = false := by decide
  have hstop : ∀ b ∈ w.stop, b.isNaN = false := by decide
  exact ⟨ht, hcolumns, hstart, hstop, windowSignals_total ht hcolumns hstart hstop⟩

end Openings

end StepSignal
