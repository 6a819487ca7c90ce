import StepSignal.Proofs.WindowInEffect

/-!
# What is in effect after refitting

Refitting to two bounds keeps the rows of a window and moves the outermost two of them to the
bounds. Under the rules that pad the start, the window has the row in effect at every time in it,
and the first row comes no later than the start. What is in effect at such a time changes only if
the last row has come by then and has not after it was moved, or the other way round.

Under `inclusive` the last row and the stop both lie beyond the times asked about, so nothing
changes. Under `pre` the last row is moved on to the stop, and from its own time up to there the row
before it stays in effect.
-/

namespace StepSignal

open Scalar

/-! ## Moving the outermost rows -/

section Moving

variable {α β : Type} {opens closes : Stamped α β} {inner : List (Stamped α β)}

/-- Two bounds are put on two rows and leave the rows in between where they are. -/
theorem putBounds_two (a b : α) (opens closes : Stamped α β) (inner : List (Stamped α β)) :
    putBounds (some a) (some b) (opens :: (inner ++ [closes]))
      = { opens with time := a } :: (inner ++ [{ closes with time := b }]) := by
  have hlabels : relabel (Stamped.times (opens :: (inner ++ [closes]))) (some a) (some b)
      = a :: (Stamped.times inner ++ [b]) := by
    simp [relabel, Stamped.times, List.modify_eq_set_getElem?]
  rw [putBounds, hlabels, Stamped.retime, List.zipWith_cons_cons,
    List.zipWith_append (Stamped.length_times inner).symm]
  exact congrArg (fun rows => _ :: (rows ++ _)) (Stamped.retime_times inner)

/-- A single row is moved to the start. -/
theorem putBounds_one (a b : α) (row : Stamped α β) :
    putBounds (some a) (some b) [row] = [{ row with time := a }] := rfl

section Ranges

variable {rows : List (Stamped α β)} {p q : Nat}

/-- A range of one row. -/
theorem Stamped.extract_eq_singleton (hp : p < rows.length) :
    extract rows p (p + 1) = [rows[p]] := by
  have hlen : (rows.take p).length = p := List.length_take_of_le hp.le
  rw [extract, List.take_succ_eq_append_getElem hp, List.drop_left' hlen]

/-- The rows from one position up to a later one, with the first of them in front. -/
theorem drop_take_eq_cons (hpq : p < q) (hq : q < rows.length) :
    (rows.take q).drop p = rows[p] :: (rows.take q).drop (p + 1) := by
  have hlen : p < (rows.take q).length := by
    rw [List.length_take]
    omega
  rw [List.drop_eq_getElem_cons hlen, List.getElem_take]

/-- A range of several rows, taken apart. -/
theorem Stamped.extract_eq_cons_append (hpq : p < q) (hq : q < rows.length) :
    extract rows p (q + 1) = rows[p] :: ((rows.take q).drop (p + 1) ++ [rows[q]]) := by
  have hlen : p ≤ (rows.take q).length := by
    rw [List.length_take]
    omega
  rw [extract, List.take_succ_eq_append_getElem hq, List.drop_append_of_le_length hlen,
    drop_take_eq_cons hpq hq, List.cons_append]

/-- The row before the last one of a range of several rows. -/
theorem getLast?_cons_drop_take (hpq : p < q) (hq : q < rows.length) :
    (rows[p] :: (rows.take q).drop (p + 1)).getLast? = rows[q - 1]? := by
  have hprevious : q - 1 < rows.length := by omega
  rw [← drop_take_eq_cons hpq hq, List.getLast?_drop, List.getLast?_take,
    List.length_take_of_le hq.le, if_neg hpq.not_ge, if_neg (by omega),
    List.getElem?_eq_getElem hprevious, Option.some_or]

end Ranges

variable [Scalar α] {a b time : α}

/-- Moving two rows keeps what is in effect at a time when the first has come, before and after, and
the last has come after it was moved if it had come before. -/
theorem inEffect_moved (hopens : le opens.time time = true) (ha : le a time = true)
    (hcloses : le closes.time time = le b time) :
    (inEffect (putBounds (some a) (some b) (opens :: (inner ++ [closes]))) time).map (·.value)
      = (inEffect (opens :: (inner ++ [closes])) time).map (·.value) := by
  have hvalues : (({ opens with time := a } :: (inner ++ [{ closes with time := b }])).filter
        fun row => le row.time time).map (·.value)
      = ((opens :: (inner ++ [closes])).filter fun row => le row.time time).map (·.value) := by
    cases hb : le b time <;> simp [hopens, ha, hcloses, hb]
  rw [putBounds_two, inEffect, inEffect, ← List.getLast?_map, ← List.getLast?_map, hvalues]

/-- At such a time there is a row in effect after the move, with the same values. -/
theorem exists_inEffect_moved {row : Stamped α β} (hopens : le opens.time time = true)
    (ha : le a time = true) (hcloses : le closes.time time = le b time)
    (hrow : inEffect (opens :: (inner ++ [closes])) time = some row) :
    ∃ row', inEffect (putBounds (some a) (some b) (opens :: (inner ++ [closes]))) time = some row' ∧
      row'.value = row.value := by
  have hvalue : (inEffect (opens :: (inner ++ [closes])) time).map (·.value) = some row.value := by
    rw [hrow, Option.map_some]
  rw [← inEffect_moved hopens ha hcloses, Option.map_eq_some_iff] at hvalue
  exact hvalue

/-- Moving the last of some rows to a later time keeps the row before it in effect. -/
theorem inEffect_delayed (ha : le a time = true) (hinner : ∀ row ∈ inner, le row.time time = true)
    (hb : le b time = false) :
    (inEffect (putBounds (some a) (some b) (opens :: (inner ++ [closes]))) time).map (·.value)
      = (opens :: inner).getLast?.map (·.value) := by
  have hvalues : (({ opens with time := a } :: (inner ++ [{ closes with time := b }])).filter
        fun row => le row.time time).map (·.value) = (opens :: inner).map (·.value) := by
    simp [ha, hb, List.filter_eq_self.mpr hinner]
  rw [putBounds_two, inEffect, ← List.getLast?_map, ← List.getLast?_map, hvalues]

end Moving

variable {α β : Type} [Scalar α] [LawfulScalar α] {rows : List (Stamped α β)} {rule : EdgeRule}
  {a b first last time s e : α} {p q : Nat}

/-! ## Two bounds -/

/-- Bounds that differ are put on all rows of their window. -/
theorem exists_refitRows_of_lt (h : Ordered (Stamped.times rows)) (hne : rows ≠ [])
    (hb : RefitBounds (some a) (some b)) (hab : lt a b = true) (rule : EdgeRule) :
    ∃ kept, windowRows rows ⟨some a, some b⟩ rule true = .ok kept ∧
      refitRows rows (some a) (some b) rule = .ok kept ∧
      Ordered (relabel (Stamped.times kept) (some a) (some b)) := by
  obtain ⟨kept, hwindow, hrefit, hordered, -⟩ := refitRows_relabel h hne hb rule
  have hdiffer : eq a b = false := by
    obtain ⟨ha, hb, hlt⟩ := (LawfulScalar.lt_iff a b).mp hab
    rw [eq_eq ha hb, decide_eq_false hlt.ne]
  have hall : keptRows (some a) (some b) kept = kept := by simp [keptRows, hdiffer]
  rw [hall] at hrefit hordered
  exact ⟨kept, hwindow, hrefit, hordered⟩

/-- The window to two bounds, if it pads its start, has the row in effect at a time in it. -/
theorem exists_inEffect_window {kept : List (Stamped α β)} (h : Ordered (Stamped.times rows))
    (hfirst : (Stamped.times rows).head? = some first) (hpad : rule.startSeek = .pad)
    (hwindow : windowRows rows ⟨some a, some b⟩ rule true = .ok kept)
    (hbegun : le first time = true) (hstart : le a time = true) (hstop : le time b = true) :
    ∃ row, inEffect rows time = some row ∧ inEffect kept time = some row := by
  have hw : Window.Contains ⟨some a, some b⟩ time :=
    ⟨fun x hx => Option.some.inj hx ▸ hstart, fun y hy => Option.some.inj hy ▸ hstop⟩
  obtain ⟨out, row, hout, hrow, hrow'⟩ := exists_windowRows_inEffect h hfirst hbegun hpad true hw
  obtain rfl := Except.ok.inj (hwindow.symm.trans hout)
  exact ⟨row, hrow, hrow'⟩

/-! ## Inclusive -/

namespace Clipped

/-- Two bounds that overlap the data are moved into it and stay apart. -/
theorem bounds_of_overlap {index : List α}
    (hc : Clipped index ⟨some a, some b⟩ rule first last s e p q) (hab : toRat a < toRat b)
    (ha : toRat a < toRat last) (hb : toRat first < toRat b) (hends : toRat first < toRat last) :
    toRat s = Max.max (toRat a) (toRat first) ∧ toRat e = Min.min (toRat b) (toRat last) ∧
      toRat s < toRat e := by
  have hs : toRat s = Max.max (toRat a) (toRat first) := by
    rw [hc.start_eq, Option.getD_some, clamp, min_eq_left ha.le, max_comm]
  have he : toRat e = Min.min (toRat b) (toRat last) := by
    rw [hc.stop_eq, Option.getD_some, clamp, max_eq_right (le_min hb.le hends.le)]
  refine ⟨hs, he, ?_⟩
  rw [hs, he]
  exact max_lt (lt_min hab ha) (lt_min hb hends)

/-- Under `inclusive` a clipped window that is not a point has one row on either side, at the bound
or beyond, and in between the rows strictly inside. -/
theorem windowRows_inclusive {w : Window α}
    (hc : Clipped (Stamped.times rows) w .inclusive first last s e p q)
    (h : Ordered (Stamped.times rows)) (hw : w.Proper) (hse : toRat s < toRat e) :
    ∃ opens closes, windowRows rows w .inclusive true
        = .ok (opens :: ((rows.filter fun row =>
            toRat s < toRat row.time && toRat row.time < toRat e) ++ [closes])) ∧
      toRat opens.time ≤ toRat s ∧ toRat e ≤ toRat closes.time := by
  have hstart := hc.stands_start h hw
  have hstop := hc.stands_stop h hw
  have hplen := hstart.lt_length
  have hqlen := hstop.lt_length
  rw [Stamped.length_times] at hplen hqlen
  have hp := Stamped.getElem?_times (List.getElem?_eq_getElem hplen)
  have hq := Stamped.getElem?_times (List.getElem?_eq_getElem hqlen)
  have hopens := h.locate_pad_le (hc.isMissing_start h hw) hc.opens hp
  have hcloses := h.le_locate_backfill (hc.isMissing_stop h hw) hc.closes hq
  have hpq : p < q := by
    by_contra hle
    have := h.le_of_le hq hp (not_lt.mp hle)
    linarith
  have hinner : (rows.filter fun row => toRat s < toRat row.time && toRat row.time < toRat e)
      = (rows.take q).drop (p + 1) := by
    refine filter_eq_extract fun i row hrow => ?_
    have hi := Stamped.getElem?_times hrow
    rw [Bool.and_eq_true, decide_eq_true_eq, decide_eq_true_eq]
    refine ⟨fun ⟨hlo, hhi⟩ => ⟨?_, ?_⟩, fun ⟨hlo, hhi⟩ => ?_⟩
    · by_contra hle
      have := h.le_of_le hi hp (by omega)
      linarith
    · by_contra hle
      have := h.le_of_le hq hi (not_lt.mp hle)
      linarith
    · exact ⟨hstart.after i _ hi hlo, hstop.before i _ hi hhi⟩
  refine ⟨rows[p], rows[q], ?_, hopens, hcloses⟩
  rw [hc.windowRows_eq, if_pos hpq.le, hinner, Stamped.extract_eq_cons_append hpq hqlen]

end Clipped

/-- Under `inclusive` a window to two bounds that overlap the data has one row on either side, at the
bound or beyond or at the edge of the data, and in between the rows strictly inside. -/
theorem windowRows_of_overlap (h : Ordered (Stamped.times rows)) (hlen : 2 ≤ rows.length)
    (hfirst : (Stamped.times rows).head? = some first)
    (hlast : (Stamped.times rows).getLast? = some last)
    (hw : (⟨some a, some b⟩ : Window α).Proper) (hab : lt a b = true) (ha : lt a last = true)
    (hb : lt first b = true) :
    ∃ opens closes, windowRows rows ⟨some a, some b⟩ .inclusive true
        = .ok (opens :: ((rows.filter fun row =>
            lt (Scalar.max a first) row.time && lt row.time (Scalar.min b last)) ++ [closes])) ∧
      le opens.time (Scalar.max a first) = true ∧ le (Scalar.min b last) closes.time = true := by
  obtain ⟨hanum, hbnum, hab⟩ := (LawfulScalar.lt_iff a b).mp hab
  obtain ⟨-, hlnum, ha⟩ := (LawfulScalar.lt_iff a last).mp ha
  obtain ⟨hfnum, -, hb⟩ := (LawfulScalar.lt_iff first b).mp hb
  have hne : Stamped.times rows ≠ [] := fun hnil => by simp [hnil] at hfirst
  have hends : toRat first < toRat last := by
    refine h.before (List.head?_eq_getElem? ▸ hfirst) (List.getLast?_eq_getElem? ▸ hlast) ?_
    rw [Stamped.length_times]
    omega
  obtain ⟨first', last', s, e, p, q, hc⟩ := exists_clipped h hne hw .inclusive
  obtain rfl : first' = first := Option.some.inj (hc.head.symm.trans hfirst)
  obtain rfl : last' = last := Option.some.inj (hc.getLast.symm.trans hlast)
  obtain ⟨hs, he, hse⟩ := hc.bounds_of_overlap hab ha hb hends
  obtain ⟨opens, closes, hrows, hopens, hcloses⟩ := hc.windowRows_inclusive h hw hse
  rw [← toRat_max hanum hfnum] at hs
  rw [← toRat_min hbnum hlnum] at he
  have hmax := isMissing_max hanum hfnum
  have hmin := isMissing_min hbnum hlnum
  have hinside : ∀ row ∈ rows, (toRat s < toRat row.time && toRat row.time < toRat e)
      = (lt (Scalar.max a first') row.time && lt row.time (Scalar.min b last')) := fun row hrow => by
    have hnum := h.isMissing_of_mem (List.mem_map_of_mem hrow)
    rw [lt_eq hmax hnum, lt_eq hnum hmin, hs, he]
  rw [List.filter_congr hinside] at hrows
  have hmem : ∀ row ∈ [opens, closes], isMissing row.time = false := fun row hrow =>
    h.isMissing_of_mem (List.mem_map_of_mem ((windowRows_sublist hrows).mem
      (List.cons_subset_cons _ (List.subset_append_right _ _) hrow)))
  refine ⟨opens, closes, hrows, ?_, ?_⟩
  · rw [le_iff, ← hs]
    exact ⟨hmem opens (by simp), hmax, hopens⟩
  · rw [le_iff, ← he]
    exact ⟨hmin, hmem closes (by simp), hcloses⟩

/-- Refitting under `inclusive` to bounds that overlap the data gives the bounds and the times
strictly inside, and keeps what is in effect inside. -/
theorem exists_refit_inclusive (h : Ordered (Stamped.times rows)) (hlen : 2 ≤ rows.length)
    (hfirst : (Stamped.times rows).head? = some first)
    (hlast : (Stamped.times rows).getLast? = some last) (hb : RefitBounds (some a) (some b))
    (hab : lt a b = true) (halast : lt a last = true) (hfirstb : lt first b = true) :
    ∃ kept, refitRows rows (some a) (some b) .inclusive = .ok kept ∧
      Ordered (relabel (Stamped.times kept) (some a) (some b)) ∧
      Stamped.times (putBounds (some a) (some b) kept)
        = a :: (((Stamped.times rows).filter fun t =>
            lt (Scalar.max a first) t && lt t (Scalar.min b last)) ++ [b]) ∧
      ∀ time, le (Scalar.max a first) time = true → lt time (Scalar.min b last) = true →
        ∃ row row', inEffect rows time = some row ∧
          inEffect (putBounds (some a) (some b) kept) time = some row' ∧
          row'.value = row.value := by
  have hne : rows ≠ [] := fun hnil => by simp [hnil] at hlen
  obtain ⟨kept, hwindow, hrefit, hordered⟩ := exists_refitRows_of_lt h hne hb hab .inclusive
  obtain ⟨opens, closes, hrows, hopens, hcloses⟩ :=
    windowRows_of_overlap h hlen hfirst hlast hb.proper hab halast hfirstb
  obtain rfl := Except.ok.inj (hwindow.symm.trans hrows)
  refine ⟨_, hrefit, hordered, ?_, fun time hstart hstop => ?_⟩
  · rw [putBounds_two]
    simp [Stamped.times, List.filter_map, Function.comp_def]
  · have hopened := le_of_le_of_le hopens hstart
    have hclosed := le_eq_false_of_lt (lt_of_lt_le hstop hcloses)
    have ha := hb.proper.start a rfl
    have hf := h.isMissing_of_mem (List.mem_of_head? hfirst)
    have hl := h.isMissing_of_mem (List.mem_of_getLast? hlast)
    rw [max_le_eq ha hf, Bool.and_eq_true] at hstart
    rw [lt_min_eq (hb.proper.stop b rfl) hl, Bool.and_eq_true] at hstop
    have hstopped : le time b = true := by rw [Scalar.le, hstop.1, Bool.true_or]
    obtain ⟨row, hrow, hkept⟩ :=
      exists_inEffect_window h hfirst rfl hwindow hstart.2 hstart.1 hstopped
    obtain ⟨row', hrow', hvalue⟩ := exists_inEffect_moved hopened hstart.1
      (hclosed.trans (le_eq_false_of_lt hstop.1).symm) hkept
    exact ⟨row, row', hrow, hrow', hvalue⟩

/-! ## Pre -/

/-- Padding finds the same row for equal times. -/
theorem Ordered.locate_pad_of_toRat_eq {index : List α} (h : Ordered index)
    (ha : isMissing a = false) (hb : isMissing b = false) (heq : toRat a = toRat b) :
    locate index a .pad = locate index b .pad :=
  h.locate_pad_congr fun t ht => by
    have hnum := h.isMissing_of_mem ht
    rw [le_eq hnum ha, le_eq hnum hb, heq]

/-- Under `pre` a window within the data goes from the row in effect at its start to the row in
effect at its stop. -/
theorem exists_windowRows_pre (h : Ordered (Stamped.times rows))
    (hfirst : (Stamped.times rows).head? = some first)
    (hlast : (Stamped.times rows).getLast? = some last)
    (hw : (⟨some a, some b⟩ : Window α).Proper) (hlo : le first a = true)
    (hhi : le b last = true) :
    ∃ p q, p ≤ q ∧ locate (Stamped.times rows) a .pad = some p ∧
      locate (Stamped.times rows) b .pad = some q ∧
      windowRows rows ⟨some a, some b⟩ .pre true = .ok (Stamped.extract rows p (q + 1)) := by
  obtain ⟨-, hanum, hlo⟩ := (le_iff first a).mp hlo
  obtain ⟨hbnum, -, hhi⟩ := (le_iff b last).mp hhi
  have hab := hw.le a rfl b rfl
  have hne : Stamped.times rows ≠ [] := fun hnil => by simp [hnil] at hfirst
  obtain ⟨first', last', s, e, p, q, hc⟩ := exists_clipped h hne hw .pre
  obtain rfl : first' = first := Option.some.inj (hc.head.symm.trans hfirst)
  obtain rfl : last' = last := Option.some.inj (hc.getLast.symm.trans hlast)
  -- clipping leaves bounds within the data where they are
  have hs : toRat s = toRat a := by
    rw [hc.start_eq, Option.getD_some, clamp_of_mem hlo (hab.trans hhi)]
  have he : toRat e = toRat b := by
    rw [hc.stop_eq, Option.getD_some, clamp_of_mem (hlo.trans hab) hhi]
  have hpq := hc.opens_le_closes h hw
  refine ⟨p, q, hpq, ?_, ?_, ?_⟩
  · rw [← h.locate_pad_of_toRat_eq (hc.isMissing_start h hw) hanum hs]
    exact hc.opens
  · rw [← h.locate_pad_of_toRat_eq (hc.isMissing_stop h hw) hbnum he]
    exact hc.closes
  · rw [hc.windowRows_eq, if_pos hpq]

omit [LawfulScalar α] in
/-- A single row stays in effect when it is moved to the start. -/
theorem exists_inEffect_one {opens row : Stamped α β} (b : α) (ha : le a time = true)
    (hrow : inEffect [opens] time = some row) :
    ∃ row', inEffect (putBounds (some a) (some b) [opens]) time = some row' ∧
      row'.value = row.value := by
  have hmem := List.mem_of_mem_filter (List.mem_of_getLast? hrow)
  obtain rfl := List.mem_singleton.mp hmem
  exact ⟨{ row with time := a }, by simp [putBounds_one, inEffect, ha], rfl⟩

/-- When the last of several rows is moved on to the stop, the row before it stays in effect from
the time of the last one up to the stop. At other times nothing changes. -/
theorem exists_inEffect_held {opens closes row : Stamped α β} {inner : List (Stamped α β)}
    (h : Ordered (Stamped.times (opens :: (inner ++ [closes])))) (hopens : le opens.time a = true)
    (hcloses : le closes.time b = true) (ha : le a time = true)
    (hrow : inEffect (opens :: (inner ++ [closes])) time = some row) :
    ∃ row', inEffect (putBounds (some a) (some b) (opens :: (inner ++ [closes]))) time = some row' ∧
      (lt time closes.time = true ∨ le b time = true → row'.value = row.value) ∧
      (le closes.time time = true → lt time b = true →
        ∃ previous, (opens :: inner).getLast? = some previous ∧ row'.value = previous.value) := by
  by_cases hheld : le closes.time time = true ∧ le b time = false
  · -- the last row had come and has not after it was moved
    have hinner : ∀ row ∈ inner, le row.time time = true := fun row hrow => by
      have hpairs := List.pairwise_map.mp h.pairwise
      have hbefore : Before row.time closes.time :=
        (List.pairwise_append.mp hpairs.of_cons).2.2 row hrow closes (List.mem_singleton_self _)
      have hnum := h.isMissing_of_mem (List.mem_map_of_mem
        (List.mem_cons_of_mem opens (List.mem_append_left [closes] hrow)))
      obtain ⟨-, htime, hle⟩ := (le_iff _ _).mp hheld.1
      exact (le_iff _ _).mpr ⟨hnum, htime, hbefore.le.trans hle⟩
    obtain ⟨previous, hprevious⟩ : ∃ previous, (opens :: inner).getLast? = some previous :=
      ⟨_, List.getLast?_eq_some_getLast (List.cons_ne_nil _ _)⟩
    have hdelayed : (opens :: inner).getLast?.map (·.value) = some previous.value := by
      rw [hprevious, Option.map_some]
    rw [← inEffect_delayed ha hinner hheld.2, Option.map_eq_some_iff] at hdelayed
    obtain ⟨row', hrow', hvalue⟩ := hdelayed
    refine ⟨row', hrow', ?_, fun _ _ => ⟨previous, hprevious, hvalue⟩⟩
    rintro (hlt | hle)
    · rw [le_eq_false_of_lt hlt] at hheld
      cases hheld.1
    · rw [hheld.2] at hle
      cases hle
  · have hsides : le closes.time time = le b time := by
      cases hb : le b time with
      | true => exact le_of_le_of_le hcloses hb
      | false => exact Bool.eq_false_iff.mpr fun hle => hheld ⟨hle, hb⟩
    obtain ⟨row', hrow', hvalue⟩ :=
      exists_inEffect_moved (le_of_le_of_le hopens ha) ha hsides hrow
    refine ⟨row', hrow', fun _ => hvalue, fun hle hlt => ?_⟩
    rw [hsides, le_eq_false_of_lt hlt] at hle
    cases hle

/-- Refitting under `pre` to bounds within the data keeps what is in effect, unless there is a row
after the start that is the last one up to the stop: it is moved on to the stop, and up to there the
row before it stays in effect. -/
theorem exists_refit_pre (h : Ordered (Stamped.times rows))
    (hfirst : (Stamped.times rows).head? = some first)
    (hlast : (Stamped.times rows).getLast? = some last) (hb : RefitBounds (some a) (some b))
    (hab : lt a b = true) (hlo : le first a = true) (hhi : le b last = true) :
    ∃ kept k final, refitRows rows (some a) (some b) .pre = .ok kept ∧
      Ordered (relabel (Stamped.times kept) (some a) (some b)) ∧
      locate (Stamped.times rows) b .pad = some k ∧ rows[k]? = some final ∧
      ∀ time, le a time = true → le time b = true →
        ∃ row row', inEffect rows time = some row ∧
          inEffect (putBounds (some a) (some b) kept) time = some row' ∧
          (lt time final.time = true ∨ le final.time a = true ∨ eq time b = true →
            row'.value = row.value) ∧
          (lt a final.time = true → le final.time time = true → lt time b = true →
            ∃ i previous, k = i + 1 ∧ rows[i]? = some previous ∧ row'.value = previous.value) := by
  have hne : rows ≠ [] := fun hnil => by simp [hnil] at hfirst
  obtain ⟨kept, hwindow, hrefit, hordered⟩ := exists_refitRows_of_lt h hne hb hab .pre
  obtain ⟨p, q, hpq, hp, hq, hrows⟩ := exists_windowRows_pre h hfirst hlast hb.proper hlo hhi
  obtain rfl := Except.ok.inj (hwindow.symm.trans hrows)
  obtain ⟨hplen, hpa⟩ := h.le_iff_of_locate_pad hp
  obtain ⟨hqlen, hqb⟩ := h.le_iff_of_locate_pad hq
  rw [Stamped.length_times] at hplen hqlen
  have hprow := Stamped.getElem?_times (List.getElem?_eq_getElem hplen)
  have hqrow := Stamped.getElem?_times (List.getElem?_eq_getElem hqlen)
  have hopens := (hpa p _ hprow).mpr le_rfl
  have hcloses := (hqb q _ hqrow).mpr le_rfl
  refine ⟨_, q, rows[q], hrefit, hordered, hq, List.getElem?_eq_getElem hqlen,
    fun time hstart hstop => ?_⟩
  obtain ⟨row, hrow, hkept⟩ := exists_inEffect_window h hfirst rfl hwindow
    (le_of_le_of_le hlo hstart) hstart hstop
  refine ⟨row, ?_⟩
  rcases hpq.eq_or_lt with rfl | hpq
  · -- only the row in effect at the start is left
    rw [Stamped.extract_eq_singleton hplen] at hkept ⊢
    obtain ⟨row', hrow', hvalue⟩ := exists_inEffect_one b hstart hkept
    refine ⟨row', hrow, hrow', fun _ => hvalue, fun hlt => ?_⟩
    rw [lt_eq_false_of_le hopens] at hlt
    cases hlt
  · have hlater : le rows[q].time a = false :=
      Bool.eq_false_iff.mpr fun hle => hpq.not_ge ((hpa q _ hqrow).mp hle)
    have hkeptOrdered := h.extract p (q + 1)
    rw [Stamped.extract_eq_cons_append hpq hqlen] at hkept hkeptOrdered ⊢
    obtain ⟨row', hrow', hsame, hheld⟩ :=
      exists_inEffect_held hkeptOrdered hopens hcloses hstart hkept
    refine ⟨row', hrow, hrow', ?_, fun _ hle hlt => ?_⟩
    · rintro (hlt | hle | heq)
      · exact hsame (.inl hlt)
      · rw [hlater] at hle
        cases hle
      · refine hsame (.inr ?_)
        obtain ⟨ht, hb, heq⟩ := (LawfulScalar.eq_iff time b).mp heq
        exact (le_iff b time).mpr ⟨hb, ht, heq.ge⟩
    · obtain ⟨previous, hprevious, hvalue⟩ := hheld hle hlt
      refine ⟨q - 1, previous, by omega, ?_, hvalue⟩
      rwa [getLast?_cons_drop_take hpq hqlen] at hprevious

/-! ## Tables and series -/

omit [LawfulScalar α] in
/-- A series is valid after refitting. -/
theorem Series.valid_putBounds {start stop : Option α} {kept : List (Stamped α α)} {name : String}
    (h : Ordered (relabel (Stamped.times kept) start stop)) :
    (⟨name, putBounds start stop kept⟩ : Series α).Valid :=
  (relabelled_retime h).ordered

/-- **Refitting under `inclusive` hits both bounds and keeps the signal.** Let finite bounds in order
overlap a table or a series that has two rows or more. The result has the bounds as its first and
last time and in between the times of the data strictly inside the bounds and the data. At every
time inside, from the later of the start and the first time on and before the earlier of the stop
and the last time, the same cells are in effect as in the data. -/
theorem refit_inclusive_exact (ha : isFinite a = true) (hb : isFinite b = true)
    (hab : lt a b = true) :
    (∀ t : Table α, t.Valid → 2 ≤ t.length →
      ∀ first ∈ t.times.head?, ∀ last ∈ t.times.getLast?, lt a last = true → lt first b = true →
      ∃ out, t.refit (some a) (some b) .inclusive = .ok out ∧ out.names = t.names ∧
        out.times = a :: ((t.times.filter fun time =>
          lt (Scalar.max a first) time && lt time (Scalar.min b last)) ++ [b]) ∧
        ∀ time, le (Scalar.max a first) time = true → lt time (Scalar.min b last) = true →
          ∃ before after, t.rowAt time = some before ∧ out.rowAt time = some after ∧
            after.cells = before.cells) ∧
    (∀ s : Series α, s.Valid → 2 ≤ s.length →
      ∀ first ∈ s.times.head?, ∀ last ∈ s.times.getLast?, lt a last = true → lt first b = true →
      ∃ out, s.refit (some a) (some b) .inclusive = .ok out ∧ out.name = s.name ∧
        out.times = a :: ((s.times.filter fun time =>
          lt (Scalar.max a first) time && lt time (Scalar.min b last)) ++ [b]) ∧
        ∀ time, le (Scalar.max a first) time = true → lt time (Scalar.min b last) = true →
          ∃ value, s.valueAt time = some value ∧ out.valueAt time = some value) := by
  have hbounds := RefitBounds.of_lt ha hb hab
  constructor
  · intro t ht hlen first hfirst last hlast hlo hhi
    obtain ⟨kept, hrefit, hordered, htimes, heffect⟩ :=
      exists_refit_inclusive ht.ordered hlen hfirst hlast hbounds hab hlo hhi
    have hout := Table.refit_eq hbounds hrefit hordered
    refine ⟨_, hout, rfl, htimes, fun time hstart hstop => ?_⟩
    obtain ⟨row, row', hrow, hrow', hvalue⟩ := heffect time hstart hstop
    obtain ⟨before, hbefore, -, hcells⟩ := ht.exists_rowAt hrow
    obtain ⟨after, hafter, -, hcells'⟩ := (ht.refit hout).exists_rowAt hrow'
    exact ⟨before, after, hbefore, hafter, by rw [hcells, hcells', hvalue]⟩
  · intro s hs hlen first hfirst last hlast hlo hhi
    obtain ⟨kept, hrefit, hordered, htimes, heffect⟩ :=
      exists_refit_inclusive hs hlen hfirst hlast hbounds hab hlo hhi
    refine ⟨_, Series.refit_eq hbounds hrefit hordered, rfl, htimes, fun time hstart hstop => ?_⟩
    obtain ⟨row, row', hrow, hrow', hvalue⟩ := heffect time hstart hstop
    have hvalid : (⟨s.name, putBounds (some a) (some b) kept⟩ : Series α).Valid :=
      Series.valid_putBounds hordered
    refine ⟨row.value, ?_, ?_⟩
    · rw [hs.valueAt_eq, hrow, Option.map_some]
    · rw [hvalid.valueAt_eq, hrow', Option.map_some, hvalue]

/-- Three rows, refitted from between the first two to beyond the last one. -/
theorem refit_inclusive_exact_of_three_rows :
    let t : Table Float := ⟨["v"], [⟨0, [.int 1]⟩, ⟨3, [.int 2]⟩, ⟨5, [.int 3]⟩]⟩
    let s : Series Float := ⟨"v", [⟨0, 1⟩, ⟨3, 2⟩, ⟨5, 3⟩]⟩
    t.Valid ∧ s.Valid ∧ isFinite (1 : Float) = true ∧ isFinite (7 : Float) = true ∧
      lt (1 : Float) 7 = true ∧ lt (1 : Float) 5 = true ∧ lt (0 : Float) 7 = true ∧
      (∃ out, t.refit (some 1) (some 7) .inclusive = .ok out ∧ out.times = [1, 3, 7] ∧
        ∃ before after, t.rowAt 4 = some before ∧ out.rowAt 4 = some after ∧
          after.cells = before.cells) ∧
      (∃ out, s.refit (some 1) (some 7) .inclusive = .ok out ∧ out.times = [1, 3, 7] ∧
        ∃ value, s.valueAt 4 = some value ∧ out.valueAt 4 = some value) := by
  intro t s
  have ht : t.Valid := ⟨checkIndex_eq_ok.mp rfl, by decide, by decide⟩
  have hs : s.Valid := checkIndex_eq_ok.mp rfl
  have ha : isFinite (1 : Float) = true := by decide
  have hb : isFinite (7 : Float) = true := by decide
  have hab : lt (1 : Float) 7 = true := by decide
  have hlo : lt (1 : Float) 5 = true := by decide
  have hhi : lt (0 : Float) 7 = true := by decide
  have hinside : (1 : Float) :: (([0, 3, 5].filter fun time =>
      lt (Scalar.max 1 0) time && lt time (Scalar.min 7 5)) ++ [7]) = [1, 3, 7] := by decide
  have hstart : le (Scalar.max 1 0) (4 : Float) = true := by decide
  have hstop : lt (4 : Float) (Scalar.min 7 5) = true := by decide
  have hexact := refit_inclusive_exact ha hb hab
  obtain ⟨out, hout, -, htimes, heffect⟩ := hexact.1 t ht (by decide) 0 rfl 5 rfl hlo hhi
  obtain ⟨out', hout', -, htimes', heffect'⟩ := hexact.2 s hs (by decide) 0 rfl 5 rfl hlo hhi
  exact ⟨ht, hs, ha, hb, hab, hlo, hhi,
    ⟨out, hout, htimes.trans hinside, heffect 4 hstart hstop⟩,
    ⟨out', hout', htimes'.trans hinside, heffect' 4 hstart hstop⟩⟩

/-- **Refitting under `pre` keeps the value in effect, up to the last change.** Let finite bounds in
order lie within the extent of a table or a series, and let `final` be what is in effect at the stop.
At every time from the start to the stop the result has the same cells in effect as the data, if that
time is before `final`, or is the stop, or if `final` does not come after the start. Otherwise `final`
was moved on to the stop, and from its own time up to there the result has the cells of the row just
before it in effect. -/
theorem refit_pre_in_effect (ha : isFinite a = true) (hb : isFinite b = true)
    (hab : lt a b = true) :
    (∀ t : Table α, t.Valid → (∃ first ∈ t.times.head?, le first a = true) →
      (∃ last ∈ t.times.getLast?, le b last = true) →
      ∃ out final, t.refit (some a) (some b) .pre = .ok out ∧ out.names = t.names ∧
        t.rowAt b = some final ∧
        ∀ time, le a time = true → le time b = true →
          ∃ before after, t.rowAt time = some before ∧ out.rowAt time = some after ∧
            (lt time final.time = true ∨ le final.time a = true ∨ eq time b = true →
              after.cells = before.cells) ∧
            (lt a final.time = true → le final.time time = true → lt time b = true →
              ∃ i previous, t.row i = .ok previous ∧ t.row (i + 1) = .ok final ∧
                after.cells = previous.cells)) ∧
    (∀ s : Series α, s.Valid → (∃ first ∈ s.times.head?, le first a = true) →
      (∃ last ∈ s.times.getLast?, le b last = true) →
      ∃ out final, s.refit (some a) (some b) .pre = .ok out ∧ out.name = s.name ∧
        inEffect s.samples b = some final ∧
        ∀ time, le a time = true → le time b = true →
          ∃ before after, s.valueAt time = some before ∧ out.valueAt time = some after ∧
            (lt time final.time = true ∨ le final.time a = true ∨ eq time b = true →
              after = before) ∧
            (lt a final.time = true → le final.time time = true → lt time b = true →
              ∃ i previous, s.samples[i]? = some previous ∧ s.samples[i + 1]? = some final ∧
                after = previous.value)) := by
  have hbounds := RefitBounds.of_lt ha hb hab
  constructor
  · rintro t ht ⟨first, hfirst, hlo⟩ ⟨last, hlast, hhi⟩
    obtain ⟨kept, k, final, hrefit, hordered, hlocate, hfinal, heffect⟩ :=
      exists_refit_pre ht.ordered hfirst hlast hbounds hab hlo hhi
    have hout := Table.refit_eq hbounds hrefit hordered
    have hrowAt : t.rowAt b = some (t.view k final) := by
      simp [Table.rowAt, Table.times, hlocate, hfinal]
    refine ⟨_, _, hout, rfl, hrowAt, fun time hstart hstop => ?_⟩
    obtain ⟨row, row', hrow, hrow', hsame, hheld⟩ := heffect time hstart hstop
    obtain ⟨before, hbefore, -, hcells⟩ := ht.exists_rowAt hrow
    obtain ⟨after, hafter, -, hcells'⟩ := (ht.refit hout).exists_rowAt hrow'
    refine ⟨before, after, hbefore, hafter, fun hcases => ?_, fun hlater hle hlt => ?_⟩
    · rw [hcells, hcells', hsame hcases]
    · obtain ⟨i, previous, rfl, hprevious, hvalue⟩ := hheld hlater hle hlt
      refine ⟨i, t.view i previous, ?_, ?_, ?_⟩
      · rw [Table.row, hprevious]
      · rw [Table.row, hfinal]
      · rw [hcells', hvalue]
        rfl
  · rintro s hs ⟨first, hfirst, hlo⟩ ⟨last, hlast, hhi⟩
    obtain ⟨kept, k, final, hrefit, hordered, hlocate, hfinal, heffect⟩ :=
      exists_refit_pre hs hfirst hlast hbounds hab hlo hhi
    have hvalid : (⟨s.name, putBounds (some a) (some b) kept⟩ : Series α).Valid :=
      Series.valid_putBounds hordered
    have heffectStop : inEffect s.samples b = some final := by
      rw [← Ordered.locate_inEffect hs b, hlocate, Option.bind_some, hfinal]
    refine ⟨_, final, Series.refit_eq hbounds hrefit hordered, rfl, heffectStop,
      fun time hstart hstop => ?_⟩
    obtain ⟨row, row', hrow, hrow', hsame, hheld⟩ := heffect time hstart hstop
    refine ⟨row.value, row'.value, ?_, ?_, hsame, fun hlater hle hlt => ?_⟩
    · rw [hs.valueAt_eq, hrow, Option.map_some]
    · rw [hvalid.valueAt_eq, hrow', Option.map_some]
    · obtain ⟨i, previous, rfl, hprevious, hvalue⟩ := hheld hlater hle hlt
      exact ⟨i, previous, hprevious, hfinal, hvalue⟩

/-- Three rows, refitted to times between them: at 7 the first row is in effect in both, and at 12
the result still has it. -/
theorem refit_pre_in_effect_of_three_rows :
    let t : Table Float := ⟨["v"], [⟨0, [.int 1]⟩, ⟨10, [.int 2]⟩, ⟨20, [.int 3]⟩]⟩
    let s : Series Float := ⟨"v", [⟨0, 1⟩, ⟨10, 2⟩, ⟨20, 3⟩]⟩
    t.Valid ∧ s.Valid ∧ isFinite (5 : Float) = true ∧ isFinite (15 : Float) = true ∧
      lt (5 : Float) 15 = true ∧ le (0 : Float) 5 = true ∧ le (15 : Float) 20 = true ∧
      (∃ out final before after i previous held, t.refit (some 5) (some 15) .pre = .ok out ∧
        t.rowAt 15 = some final ∧ t.rowAt 7 = some before ∧ out.rowAt 7 = some after ∧
        after.cells = before.cells ∧ t.row i = .ok previous ∧ t.row (i + 1) = .ok final ∧
        out.rowAt 12 = some held ∧ held.cells = previous.cells) ∧
      ∃ out value, s.refit (some 5) (some 15) .pre = .ok out ∧ s.valueAt 7 = some value ∧
        out.valueAt 7 = some value := by
  intro t s
  have ht : t.Valid := ⟨checkIndex_eq_ok.mp rfl, by decide, by decide⟩
  have hs : s.Valid := checkIndex_eq_ok.mp rfl
  have ha : isFinite (5 : Float) = true := by decide
  have hb : isFinite (15 : Float) = true := by decide
  have hab : lt (5 : Float) 15 = true := by decide
  have hlo : le (0 : Float) 5 = true := by decide
  have hhi : le (15 : Float) 20 = true := by decide
  have hkeeps := refit_pre_in_effect ha hb hab
  refine ⟨ht, hs, ha, hb, hab, hlo, hhi, ?_, ?_⟩
  · obtain ⟨out, final, hout, -, hfinal, heffect⟩ := hkeeps.1 t ht ⟨0, rfl, hlo⟩ ⟨20, rfl, hhi⟩
    have hlast : t.rowAt 15 = some ⟨1, 10, [("v", .int 2)]⟩ := by
      decide +kernel
    obtain rfl := Option.some.inj (hlast.symm.trans hfinal)
    obtain ⟨before, after, hbefore, hafter, hsame, -⟩ := heffect 7 (by decide) (by decide)
    obtain ⟨-, held, -, hheld, -, hlater⟩ := heffect 12 (by decide) (by decide)
    obtain ⟨i, previous, hprevious, hnext, hcells⟩ := hlater (by decide) (by decide) (by decide)
    exact ⟨out, _, before, after, i, previous, held, hout, hfinal, hbefore, hafter,
      hsame (.inl (by decide)), hprevious, hnext, hheld, hcells⟩
  · obtain ⟨out, final, hout, -, hfinal, heffect⟩ := hkeeps.2 s hs ⟨0, rfl, hlo⟩ ⟨20, rfl, hhi⟩
    have hlast : inEffect s.samples 15 = some ⟨10, 2⟩ := by decide
    obtain rfl := Option.some.inj (hlast.symm.trans hfinal)
    obtain ⟨value, after, hvalue, hafter, hsame, -⟩ := heffect 7 (by decide) (by decide)
    obtain rfl := hsame (.inl (by decide))
    exact ⟨out, after, hout, hvalue, hafter⟩

/-- The change from 1 to 2 comes at 10, and refitting to the times from 5 to 15 moves it on to 15: at
12 the data have 2 in effect and the result has 1. -/
theorem refit_pre_moves_change :
    let s : Series Float := ⟨"freq", [⟨0, 1⟩, ⟨10, 2⟩, ⟨20, 3⟩]⟩
    s.Valid ∧ le (0 : Float) 5 = true ∧ lt (5 : Float) 15 = true ∧ le (15 : Float) 20 = true ∧
      le (5 : Float) 12 = true ∧ le (12 : Float) 15 = true ∧
      ¬ ∃ out value, s.refit (some 5) (some 15) .pre = .ok out ∧ s.valueAt 12 = some value ∧
        out.valueAt 12 = some value := by
  intro s
  have hs : s.Valid := checkIndex_eq_ok.mp rfl
  have hout : s.refit (some 5) (some 15) .pre = .ok ⟨"freq", [⟨5, 1⟩, ⟨15, 2⟩]⟩ := by
    decide +kernel
  refine ⟨hs, by decide, by decide, by decide, by decide, by decide, ?_⟩
  rintro ⟨out, value, hout', hvalue, hvalue'⟩
  obtain rfl := Except.ok.inj (hout.symm.trans hout')
  have htwo : s.valueAt 12 = some 2 := by decide +kernel
  have hone : Series.valueAt ⟨"freq", [⟨5, 1⟩, ⟨15, 2⟩]⟩ (12 : Float) = some 1 := by
    decide +kernel
  have hequal : (2 : Float) = 1 :=
    Option.some.inj (htwo.symm.trans (hvalue.trans (hvalue'.symm.trans hone)))
  exact absurd hequal (by decide)

end StepSignal
