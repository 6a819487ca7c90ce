import StepSignal.Proofs.NestedWindows

/-!
# Windows of what they selected

A window that is applied to the rows it has selected selects all of them. Without clipping every
bound is found again at the row where it was found before. Clipping moves the bounds into the extent
of the data, which the second time is another one; but it only matters for a window that lies beyond
one end of the data. Such a window selects the row at that end, and lies beyond the end of that row
as well.
-/

namespace StepSignal

open Scalar

variable {α : Type} [Scalar α] [LawfulScalar α] {index : List α} {first last a b : α}

/-! ## Without clipping -/

section Unclipped

variable {w : Window α} {rule : EdgeRule} {p q : Nat}

omit [LawfulScalar α] in
/-- Bounds that are numbers are accepted. -/
theorem Window.check_of_bounds (hstart : ∀ a ∈ w.start, isMissing a = false)
    (hstop : ∀ b ∈ w.stop, isMissing b = false) : w.check = .ok () := by
  obtain ⟨start, stop⟩ := w
  unfold Window.check
  cases start <;> cases stop <;> simp_all

/-- The row at which a window closes is one of the data. -/
theorem Spans.closes_in (h : Ordered index) (hstop : ∀ b ∈ w.stop, isMissing b = false)
    (hs : Spans index w rule p q) : q < index.length := by
  obtain ⟨last, hlast, hclose⟩ := hs.closes
  have hpos := List.length_pos_of_mem (List.mem_of_getLast? hlast)
  rcases hb : w.stop with - | b
  · rw [hb, closingRow] at hclose
    have hq := Option.some.inj hclose
    omega
  · have hbnum := hstop b hb
    rw [hb, h.closingRow_eq hlast hbnum] at hclose
    have hl := h.isMissing_of_mem (List.mem_of_getLast? hlast)
    exact (h.stands_of_locate (isMissing_min hbnum hl) hclose).lt_length

/-- A window spans all of the rows that it spans in a larger index. -/
theorem Spans.again (h : Ordered index) (hstart : ∀ a ∈ w.start, isMissing a = false)
    (hstop : ∀ b ∈ w.stop, isMissing b = false) (hs : Spans index w rule p q) :
    Spans ((index.take (q + 1)).drop p) w rule 0 (q - p) := by
  have hlen := hs.closes_in h hstop
  obtain ⟨⟨first, hfirst, hopen⟩, ⟨last, hlast, hclose⟩, hle⟩ := hs
  have hp := List.getElem?_eq_getElem (show p < index.length by omega)
  have hq := List.getElem?_eq_getElem hlen
  generalize index[p] = s at hp
  generalize index[q] = e at hq
  have hhead : s ∈ ((index.take (q + 1)).drop p).head? := by
    show ((index.take (q + 1)).drop p).head? = some s
    rw [List.head?_eq_getElem?, ← Nat.sub_self p, getElem?_range_of_mem le_rfl hle, hp]
  have hend : e ∈ ((index.take (q + 1)).drop p).getLast? := by
    show ((index.take (q + 1)).drop p).getLast? = some e
    rw [List.getLast?_eq_getElem?, length_range hlen, show q + 1 - p - 1 = q - p by omega,
      getElem?_range_of_mem hle le_rfl, hq]
  refine ⟨⟨s, hhead, ?_⟩, ⟨e, hend, ?_⟩, Nat.zero_le _⟩
  · rcases ha : w.start with - | a
    · rfl
    · rw [ha] at hopen
      rw [h.openingRow_range hfirst (hstart a ha) hopen le_rfl hle hlen hp, Nat.sub_self]
  · rcases hb : w.stop with - | b
    · rw [closingRow, length_range hlen]
      congr 1
      omega
    · rw [hb] at hclose
      exact h.closingRow_range hlast (hstop b hb) hclose hle le_rfl hq

omit [LawfulScalar α] in
/-- A window that spans all rows selects all of them. -/
theorem windowRows_of_spans_all {β : Type} {rows : List (Stamped α β)}
    (hs : Spans (Stamped.times rows) w rule 0 (rows.length - 1)) (hw : w.check = .ok ()) :
    windowRows rows w rule false = .ok rows := by
  rw [hs.windowRows hw, Stamped.extract, List.drop_zero, List.take_of_length_le (by omega)]

/-- Without clipping a window spans all of the rows that it selects. -/
theorem exists_windowRows {β : Type} {rows : List (Stamped α β)} (h : Ordered (Stamped.times rows))
    (rule : EdgeRule) (hstart : ∀ a ∈ w.start, isMissing a = false)
    (hstop : ∀ b ∈ w.stop, isMissing b = false) :
    ∃ out, windowRows rows w rule false = .ok out ∧
      (out ≠ [] → Spans (Stamped.times out) w rule 0 (out.length - 1)) := by
  have hcheck := Window.check_of_bounds hstart hstop
  by_cases hs : ∃ p q, Spans (Stamped.times rows) w rule p q
  · obtain ⟨p, q, hs⟩ := hs
    refine ⟨_, hs.windowRows hcheck, fun _ => ?_⟩
    have hlen := hs.closes_in h hstop
    rw [Stamped.length_times] at hlen
    rw [Stamped.length_extract hlen, show q + 1 - p - 1 = q - p by omega, Stamped.times_extract]
    exact hs.again h hstart hstop
  · have hnone : ∀ p q, ¬ Spans (Stamped.times rows) w rule p q := fun p q hpq => hs ⟨p, q, hpq⟩
    exact ⟨[], windowRows_of_not_spans hnone hcheck, fun hne => absurd rfl hne⟩

end Unclipped

/-! ## With clipping -/

section Clipped

variable {w : Window α}

/-- Whether a window lies wholly before the first time of the data. -/
def Window.IsBefore (w : Window α) (first last : α) : Prop :=
  toRat (w.start.getD first) ≤ toRat first ∧ toRat (w.stop.getD last) ≤ toRat first

/-- Whether a window lies wholly after the last time of the data. -/
def Window.IsAfter (w : Window α) (first last : α) : Prop :=
  toRat last ≤ toRat (w.start.getD first) ∧ toRat last ≤ toRat (w.stop.getD last)

omit [LawfulScalar α] in
theorem isMissing_getD {bound : Option α} {d : α} (hbound : ∀ a ∈ bound, isMissing a = false)
    (hd : isMissing d = false) : isMissing (bound.getD d) = false := by
  cases bound with
  | none => exact hd
  | some a => exact hbound a rfl

instance (w : Window α) (first last : α) : Decidable (w.IsBefore first last) :=
  inferInstanceAs (Decidable (_ ∧ _))

instance (w : Window α) (first last : α) : Decidable (w.IsAfter first last) :=
  inferInstanceAs (Decidable (_ ∧ _))

/-- Clipping, with the bounds compared as numbers. -/
theorem Window.clip_eq (hstart : ∀ a ∈ w.start, isMissing a = false)
    (hstop : ∀ b ∈ w.stop, isMissing b = false) (hf : isMissing first = false)
    (hl : isMissing last = false) :
    w.clip first last =
      if w.IsBefore first last then ⟨some first, some first⟩
      else if w.IsAfter first last then ⟨some last, some last⟩
      else ⟨some (Scalar.max (w.start.getD first) first),
        some (Scalar.min (w.stop.getD last) last)⟩ := by
  have ha := isMissing_getD hstart hf
  have hb := isMissing_getD hstop hl
  have hbefore : (le (w.start.getD first) first && le (w.stop.getD last) first) = true ↔
      w.IsBefore first last := by
    rw [le_eq ha hf, le_eq hb hf, Bool.and_eq_true, decide_eq_true_eq, decide_eq_true_eq]
    rfl
  have hafter : (le last (w.start.getD first) && le last (w.stop.getD last)) = true ↔
      w.IsAfter first last := by
    rw [le_eq hl ha, le_eq hl hb, Bool.and_eq_true, decide_eq_true_eq, decide_eq_true_eq]
    rfl
  unfold Window.clip
  simp only [hbefore, hafter]

/-- A bound that was moved up to the first time opens where it would have opened by itself. -/
theorem Ordered.openingRow_max (h : Ordered index) (hfirst : index.head? = some first)
    (rule : EdgeRule) {start : Option α} (hstart : ∀ a ∈ start, isMissing a = false) :
    openingRow index first rule (some (Scalar.max (start.getD first) first))
      = openingRow index first rule start := by
  have hf := h.isMissing_of_mem (List.mem_of_head? hfirst)
  have hzero := List.head?_eq_getElem? ▸ hfirst
  have hself : Scalar.max first first = first := by
    rcases max_cases hf hf with ⟨heq, -⟩ | ⟨heq, -⟩ <;> exact heq
  rcases start with - | a
  · rw [Option.getD_none, hself, h.openingRow_eq hfirst hf, hself, h.locate_hit hf hzero rfl]
    rfl
  · have ha := hstart a rfl
    rw [Option.getD_some, h.openingRow_eq hfirst ha, h.openingRow_eq hfirst (isMissing_max ha hf)]
    rcases max_cases ha hf with ⟨heq, -⟩ | ⟨heq, -⟩
    · rw [heq, heq]
    · rw [heq, hself]

/-- A bound that was moved back to the last time closes where it would have closed by itself. -/
theorem Ordered.closingRow_min (h : Ordered index) (hlast : index.getLast? = some last)
    (rule : EdgeRule) {stop : Option α} (hstop : ∀ b ∈ stop, isMissing b = false) :
    closingRow index last rule (some (Scalar.min (stop.getD last) last))
      = closingRow index last rule stop := by
  have hl := h.isMissing_of_mem (List.mem_of_getLast? hlast)
  have hend := List.getLast?_eq_getElem? ▸ hlast
  have hself : Scalar.min last last = last := by
    rcases min_cases hl hl with ⟨heq, -⟩ | ⟨heq, -⟩ <;> exact heq
  rcases stop with - | b
  · rw [Option.getD_none, hself, h.closingRow_eq hlast hl, hself, h.locate_hit hl hend rfl]
    rfl
  · have hb := hstop b rfl
    rw [Option.getD_some, h.closingRow_eq hlast hb, h.closingRow_eq hlast (isMissing_min hb hl)]
    rcases min_cases hb hl with ⟨heq, -⟩ | ⟨heq, -⟩
    · rw [heq, heq]
    · rw [heq, hself]

variable {β : Type} {rows : List (Stamped α β)} (h : Ordered (Stamped.times rows))
  (hfirst : (Stamped.times rows).head? = some first)
  (hlast : (Stamped.times rows).getLast? = some last)
  (hstart : ∀ a ∈ w.start, isMissing a = false) (hstop : ∀ b ∈ w.stop, isMissing b = false)
  (rule : EdgeRule)

include h hfirst hlast hstart hstop

/-- A clipped window before the data selects the first row. -/
theorem windowRows_of_isBefore (hw : w.IsBefore first last) :
    windowRows rows w rule true = .ok (rows.take 1) := by
  have hf := h.isMissing_of_mem (List.mem_of_head? hfirst)
  have hl := h.isMissing_of_mem (List.mem_of_getLast? hlast)
  have hzero := List.head?_eq_getElem? ▸ hfirst
  have hopen : openingRow (Stamped.times rows) first rule (some first) = some 0 := by
    rw [openingRow, h.locate_hit hf hzero rfl]
  have hclose : closingRow (Stamped.times rows) last rule (some first) = some 0 := by
    rw [closingRow, h.locate_hit hf hzero rfl]
  rw [windowRows, windowRange, Window.check_of_bounds hstart hstop]
  simp only [ok_bind, hfirst, hlast, if_true, Window.clip_eq hstart hstop hf hl, if_pos hw, hopen,
    hclose, le_refl]
  rfl

/-- A clipped window after the data selects the last row. -/
theorem windowRows_of_isAfter (hbefore : ¬ w.IsBefore first last) (hw : w.IsAfter first last) :
    windowRows rows w rule true = .ok (rows.drop (rows.length - 1)) := by
  have hf := h.isMissing_of_mem (List.mem_of_head? hfirst)
  have hl := h.isMissing_of_mem (List.mem_of_getLast? hlast)
  have hend := List.getLast?_eq_getElem? ▸ hlast
  have hlen := (List.getElem?_eq_some_iff.mp hend).1
  rw [Stamped.length_times] at hend hlen
  have hopen : openingRow (Stamped.times rows) first rule (some last) = some (rows.length - 1) := by
    rw [openingRow, h.locate_hit hl hend rfl]
  have hclose : closingRow (Stamped.times rows) last rule (some last) = some (rows.length - 1) := by
    rw [closingRow, h.locate_hit hl hend rfl]
  have hall : Stamped.extract rows (rows.length - 1) (rows.length - 1 + 1)
      = rows.drop (rows.length - 1) := by
    rw [Stamped.extract, show rows.length - 1 + 1 = rows.length by omega, List.take_length]
  rw [windowRows, windowRange, Window.check_of_bounds hstart hstop]
  simp only [ok_bind, hfirst, hlast, if_true, Window.clip_eq hstart hstop hf hl, if_neg hbefore,
    if_pos hw, hopen, hclose, le_refl]
  exact congrArg Except.ok hall

/-- Clipping changes nothing for a window that lies beyond neither end of the data. -/
theorem windowRows_clipped (hbefore : ¬ w.IsBefore first last) (hafter : ¬ w.IsAfter first last) :
    windowRows rows w rule true = windowRows rows w rule false := by
  have hf := h.isMissing_of_mem (List.mem_of_head? hfirst)
  have hl := h.isMissing_of_mem (List.mem_of_getLast? hlast)
  simp only [windowRows, windowRange, hfirst, hlast, if_true, Bool.false_eq_true, if_false,
    Window.clip_eq hstart hstop hf hl, if_neg hbefore, if_neg hafter, h.openingRow_max hfirst rule hstart,
    h.closingRow_min hlast rule hstop]

end Clipped

/-! ## A second time -/

section Again

variable {β : Type} {rows : List (Stamped α β)} {w : Window α} {rule : EdgeRule}

/-- A window that lies beyond one end of rows that it spans without clipping spans a single row. -/
theorem Spans.length_le_one (h : Ordered (Stamped.times rows))
    (hfirst : (Stamped.times rows).head? = some first)
    (hlast : (Stamped.times rows).getLast? = some last)
    (hstart : ∀ a ∈ w.start, isMissing a = false) (hstop : ∀ b ∈ w.stop, isMissing b = false)
    (hs : Spans (Stamped.times rows) w rule 0 (rows.length - 1))
    (hw : w.IsBefore first last ∨ w.IsAfter first last) : rows.length - 1 = 0 := by
  have hf := h.isMissing_of_mem (List.mem_of_head? hfirst)
  have hl := h.isMissing_of_mem (List.mem_of_getLast? hlast)
  have hzero := List.head?_eq_getElem? ▸ hfirst
  have hend := List.getLast?_eq_getElem? ▸ hlast
  rw [Stamped.length_times] at hend
  obtain ⟨⟨first', hfirst', hopen⟩, ⟨last', hlast', hclose⟩, -⟩ := hs
  obtain rfl : first' = first := Option.some.inj (hfirst'.symm.trans hfirst)
  obtain rfl : last' = last := Option.some.inj (hlast'.symm.trans hlast)
  rcases hw with ⟨-, hle⟩ | ⟨hle, -⟩
  · -- the stop is not after the first row, so that is where the window closes
    have hb := isMissing_getD hstop hl
    have hbl := isMissing_min hb hl
    rw [← h.closingRow_min hlast rule hstop, h.closingRow_eq hlast hbl] at hclose
    have hfound := isMissing_min hbl hl
    refine Nat.le_zero.mp (h.locate_mono hfound hf ?_ hclose (h.locate_hit hf hzero rfl _))
    rw [toRat_min hbl hl, toRat_min hb hl]
    exact (min_le_left _ _).trans ((min_le_left _ _).trans hle)
  · -- the start is not before the last row, so that is where the window opens
    have ha := isMissing_getD hstart hf
    have haf := isMissing_max ha hf
    rw [← h.openingRow_max hfirst rule hstart, h.openingRow_eq hfirst haf] at hopen
    have hfound := isMissing_max haf hf
    refine Nat.le_zero.mp (h.locate_mono hl hfound ?_ (h.locate_hit hl hend rfl _) hopen)
    rw [toRat_max haf hf, toRat_max ha hf]
    exact hle.trans ((le_max_left _ _).trans (le_max_left _ _))

/-- With clipping a window selects all rows that it spans without. -/
theorem windowRows_clipped_of_spans_all (h : Ordered (Stamped.times rows))
    (hstart : ∀ a ∈ w.start, isMissing a = false) (hstop : ∀ b ∈ w.stop, isMissing b = false)
    (hs : Spans (Stamped.times rows) w rule 0 (rows.length - 1)) :
    windowRows rows w rule true = .ok rows := by
  obtain ⟨first, hfirst, -⟩ := hs.opens
  obtain ⟨last, hlast, -⟩ := hs.closes
  have hone := hs.length_le_one h hfirst hlast hstart hstop
  by_cases hbefore : w.IsBefore first last
  · have hlen := hone (.inl hbefore)
    rw [windowRows_of_isBefore h hfirst hlast hstart hstop rule hbefore,
      List.take_of_length_le (by omega)]
  by_cases hafter : w.IsAfter first last
  · rw [windowRows_of_isAfter h hfirst hlast hstart hstop rule hbefore hafter,
      hone (.inr hafter), List.drop_zero]
  · rw [windowRows_clipped h hfirst hlast hstart hstop rule hbefore hafter]
    exact windowRows_of_spans_all hs (Window.check_of_bounds hstart hstop)

/-- A row selected by a clipped window beyond one end of the data is selected again. -/
theorem windowRows_single {row : Stamped α β} (hrow : isFinite row.time = true)
    (hstart : ∀ a ∈ w.start, isMissing a = false) (hstop : ∀ b ∈ w.stop, isMissing b = false)
    (hw : w.IsBefore row.time row.time ∨ w.IsAfter row.time row.time) :
    windowRows [row] w rule true = .ok [row] := by
  have h : Ordered (Stamped.times [row]) := ⟨fun t ht => List.mem_singleton.mp ht ▸ hrow, trivial⟩
  by_cases hbefore : w.IsBefore row.time row.time
  · exact windowRows_of_isBefore h rfl rfl hstart hstop rule hbefore
  · exact windowRows_of_isAfter h rfl rfl hstart hstop rule hbefore (hw.resolve_left hbefore)

omit [LawfulScalar α] in
theorem windowRows_nil (hw : w.check = .ok ()) (rule : EdgeRule) (clipped : Bool) :
    windowRows ([] : List (Stamped α β)) w rule clipped = .ok [] := by
  rw [windowRows, windowRange, hw]
  rfl

/-- A window before the data is one before their first row. -/
theorem Window.IsBefore.atFirst (h : w.IsBefore first last) : w.IsBefore first first := by
  refine ⟨h.1, ?_⟩
  rcases hb : w.stop with - | b
  · exact le_rfl
  · have hle := h.2
    rwa [hb] at hle

/-- A window after the data is one after their last row. -/
theorem Window.IsAfter.atLast (h : w.IsAfter first last) : w.IsAfter last last := by
  refine ⟨?_, h.2⟩
  rcases ha : w.start with - | a
  · exact le_rfl
  · have hle := h.1
    rwa [ha] at hle

/-- A window selects what it has selected without clipping. -/
theorem windowRows_again_unclipped (h : Ordered (Stamped.times rows)) (rule : EdgeRule)
    (hstart : ∀ a ∈ w.start, isMissing a = false) (hstop : ∀ b ∈ w.stop, isMissing b = false) :
    ∃ out, windowRows rows w rule false = .ok out ∧ windowRows out w rule false = .ok out := by
  have hcheck := Window.check_of_bounds hstart hstop
  obtain ⟨out, hout, hspans⟩ := exists_windowRows h rule hstart hstop
  refine ⟨out, hout, ?_⟩
  by_cases hne : out = []
  · rw [hne]
    exact windowRows_nil hcheck rule false
  · exact windowRows_of_spans_all (hspans hne) hcheck

/-- A window selects what it has selected with clipping: the row at one end of the data, or what it
selects without. -/
theorem windowRows_again_clipped (h : Ordered (Stamped.times rows)) (rule : EdgeRule)
    (hstart : ∀ a ∈ w.start, isMissing a = false) (hstop : ∀ b ∈ w.stop, isMissing b = false) :
    ∃ out, windowRows rows w rule true = .ok out ∧ windowRows out w rule true = .ok out := by
  have hcheck := Window.check_of_bounds hstart hstop
  by_cases hrows : rows = []
  · rw [hrows]
    exact ⟨[], windowRows_nil hcheck rule true, windowRows_nil hcheck rule true⟩
  have hfirst : (Stamped.times rows).head? = some (rows.head hrows).time := by
    rw [Stamped.times, List.head?_map, List.head?_eq_some_head hrows]
    rfl
  have hlast : (Stamped.times rows).getLast? = some (rows.getLast hrows).time := by
    rw [Stamped.times, List.getLast?_map, List.getLast?_eq_some_getLast hrows]
    rfl
  by_cases hbefore : w.IsBefore (rows.head hrows).time (rows.getLast hrows).time
  · have hone : rows.take 1 = [rows.head hrows] := by
      rw [List.take_one, List.head?_eq_some_head hrows]
      rfl
    refine ⟨rows.take 1, windowRows_of_isBefore h hfirst hlast hstart hstop rule hbefore, ?_⟩
    rw [hone]
    exact windowRows_single (h.1 _ (List.mem_of_head? hfirst)) hstart hstop (.inl hbefore.atFirst)
  by_cases hafter : w.IsAfter (rows.head hrows).time (rows.getLast hrows).time
  · have hone : rows.drop (rows.length - 1) = [rows.getLast hrows] :=
      List.drop_length_sub_one hrows
    refine ⟨_, windowRows_of_isAfter h hfirst hlast hstart hstop rule hbefore hafter, ?_⟩
    rw [hone]
    exact windowRows_single (h.1 _ (List.mem_of_getLast? hlast)) hstart hstop (.inr hafter.atLast)
  · obtain ⟨out, hout, hspans⟩ := exists_windowRows h rule hstart hstop
    rw [windowRows_clipped h hfirst hlast hstart hstop rule hbefore hafter]
    refine ⟨out, hout, ?_⟩
    by_cases hne : out = []
    · rw [hne]
      exact windowRows_nil hcheck rule true
    · have hordered : Ordered (Stamped.times out) := h.sublist ((windowRows_sublist hout).map _)
      exact windowRows_clipped_of_spans_all hordered hstart hstop (hspans hne)

/-- A window selects what it has selected. -/
theorem windowRows_again (h : Ordered (Stamped.times rows)) (rule : EdgeRule) (clipped : Bool)
    (hstart : ∀ a ∈ w.start, isMissing a = false) (hstop : ∀ b ∈ w.stop, isMissing b = false) :
    ∃ out, windowRows rows w rule clipped = .ok out ∧ windowRows out w rule clipped = .ok out := by
  cases clipped with
  | false => exact windowRows_again_unclipped h rule hstart hstop
  | true => exact windowRows_again_clipped h rule hstart hstop

end Again

/-- **Windowing is idempotent.** For bounds that are numbers, in whatever order and wherever they
lie, under any rule and with or without clipping, a window of a table or of a series selects all of
what it has selected. -/
theorem window_idempotent (rule : EdgeRule) (clipped : Bool) {w : Window α}
    (hstart : ∀ a ∈ w.start, isMissing a = false) (hstop : ∀ b ∈ w.stop, isMissing b = false) :
    (∀ t : Table α, t.Valid → ∃ out, t.window w rule clipped = .ok out ∧
      out.window w rule clipped = .ok out) ∧
    (∀ s : Series α, s.Valid → ∃ out, s.window w rule clipped = .ok out ∧
      out.window w rule clipped = .ok out) := by
  constructor
  · intro t ht
    obtain ⟨out, hout, hagain⟩ := windowRows_again ht.ordered rule clipped hstart hstop
    refine ⟨⟨t.names, out⟩, ?_, ?_⟩ <;> rw [Table.window]
    · rw [hout]
      rfl
    · rw [hagain]
      rfl
  · intro s hs
    obtain ⟨out, hout, hagain⟩ := windowRows_again hs rule clipped hstart hstop
    refine ⟨⟨s.name, out⟩, ?_, ?_⟩ <;> rw [Series.window]
    · rw [hout]
      rfl
    · rw [hagain]
      rfl

/-- A clipped window that stops before it starts, between two rows, and looks outwards for both: it
selects the two rows. -/
theorem window_idempotent_of_reversed :
    let t : Table Float := ⟨["v"], [⟨0, [.int 1]⟩, ⟨3, [.int 2]⟩, ⟨5, [.int 3]⟩]⟩
    let s : Series Float := ⟨"v", [⟨0, 1⟩, ⟨3, 2⟩]⟩
    let w : Window Float := ⟨some 2, some 1⟩
    t.Valid ∧ s.Valid ∧ (∀ a ∈ w.start, isMissing a = false) ∧
      (∀ b ∈ w.stop, isMissing b = false) ∧
      (∃ out, t.window w .inclusive true = .ok out ∧ out.window w .inclusive true = .ok out) ∧
      (∃ out, s.window w .inclusive true = .ok out ∧ out.window w .inclusive true = .ok out) := by
  intro t s w
  have ht : t.Valid := ⟨checkIndex_eq_ok.mp rfl, by decide, by decide⟩
  have hs : s.Valid := checkIndex_eq_ok.mp rfl
  have hstart : ∀ a ∈ w.start, isMissing a = false := by decide
  have hstop : ∀ b ∈ w.stop, isMissing b = false := by decide
  have hidempotent := window_idempotent .inclusive true hstart hstop
  exact ⟨ht, hs, hstart, hstop, hidempotent.1 t ht, hidempotent.2 s hs⟩

end StepSignal
