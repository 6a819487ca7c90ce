import StepSignal.Proofs.InEffect
import StepSignal.Proofs.RepeatedWindow
import StepSignal.Proofs.Table

/-!
# What is in effect inside a window

A start that is padded is resolved to the row in effect at it, or to the first row if none is in
effect yet, so the window opens no later than at the row in effect at any time from the start on.
However the stop is resolved, the window closes no earlier than at the row in effect at any time up
to it. So at a time inside the window the row in effect is one of those selected, and among them it
is still the last one at or before that time.
-/

namespace StepSignal

open Scalar

variable {α β : Type} [Scalar α] [LawfulScalar α] {index : List α} {first last time : α} {k : Nat}

/-- A time lies in a window. The bounds are numbers then, and the start is not after the stop. -/
structure Window.Contains (w : Window α) (time : α) : Prop where
  start : ∀ a ∈ w.start, le a time = true
  stop : ∀ b ∈ w.stop, le time b = true

/-! ## The row in effect in a range -/

namespace Ordered

/-- The row that padding finds is the last one at or before the time. -/
theorem le_iff_of_locate_pad (h : Ordered index) (hk : locate index time .pad = some k) :
    k < index.length ∧ ∀ i t, index[i]? = some t → (le t time = true ↔ i ≤ k) := by
  obtain ⟨n, hn, hle, hlocate⟩ := h.exists_locate_pad time
  rw [hk] at hlocate
  split at hlocate
  · cases hlocate
  · obtain rfl := Option.some.inj hlocate
    refine ⟨by omega, fun i t hi => ?_⟩
    rw [hle i t hi]
    omega

/-- Once the first row has come, padding finds a row. -/
theorem exists_locate_pad_of_le (h : Ordered index) (hfirst : index.head? = some first)
    (hle : le first time = true) : ∃ k, locate index time .pad = some k := by
  obtain ⟨n, -, hiff, hlocate⟩ := h.exists_locate_pad time
  have hpos := (hiff 0 first (List.head?_eq_getElem? ▸ hfirst)).mp hle
  exact ⟨n - 1, by rw [hlocate, if_neg hpos.ne']⟩

variable {rows : List (Stamped α β)} {p q : Nat}

/-- A range that has the row in effect has it in effect. -/
theorem inEffect_extract (h : Ordered (Stamped.times rows))
    (hk : locate (Stamped.times rows) time .pad = some k) (hp : p ≤ k) (hq : k ≤ q) :
    inEffect (Stamped.extract rows p (q + 1)) time = inEffect rows time := by
  obtain ⟨hlen, hle⟩ := h.le_iff_of_locate_pad hk
  rw [Stamped.length_times] at hlen
  -- in the range, the rows at or before the time are those up to `k - p`
  have hrows : ((Stamped.extract rows p (q + 1)).filter fun row => le row.time time)
      = ((Stamped.extract rows p (q + 1)).take (k - p + 1)).drop 0 := by
    refine filter_eq_extract fun i row hi => ?_
    have hrow := (getElem?_range hi).1
    rw [hle (p + i) row.time (by simp [Stamped.times, hrow])]
    omega
  have hlast : (Stamped.extract rows p (q + 1))[k - p]? = some rows[k] :=
    (getElem?_range_of_mem hp hq).trans (List.getElem?_eq_getElem hlen)
  rw [← h.locate_inEffect time, hk, Option.bind_some, List.getElem?_eq_getElem hlen, inEffect,
    hrows, List.drop_zero, List.getLast?_take, if_neg (Nat.succ_ne_zero _), Nat.add_sub_cancel,
    hlast, Option.some_or]

end Ordered

/-! ## Where a window opens and closes -/

section Edges

variable {w : Window α} {rule : EdgeRule}

namespace Ordered

/-- A window that pads its start opens no later than at the row in effect at a time in it. -/
theorem exists_openingRow_le (h : Ordered index) (hfirst : index.head? = some first)
    (hpad : rule.startSeek = .pad) (hk : locate index time .pad = some k)
    (hstart : ∀ a ∈ w.start, le a time = true) :
    ∃ p ≤ k, openingRow index first rule w.start = some p := by
  rcases ha : w.start with - | a
  · exact ⟨0, Nat.zero_le k, rfl⟩
  · obtain ⟨hanum, htime, hle⟩ := (le_iff a time).mp (hstart a ha)
    refine h.exists_openingRow hfirst hanum htime hle ?_
    rw [openingRow, hpad, hk]

/-- A window closes no earlier than at the row in effect at a time in it. -/
theorem exists_closingRow_ge (rule : EdgeRule) (h : Ordered index) (hlast : index.getLast? = some last)
    (hk : locate index time .pad = some k) (hstop : ∀ b ∈ w.stop, le time b = true) :
    ∃ q, k ≤ q ∧ closingRow index last rule w.stop = some q := by
  obtain ⟨hlen, hle⟩ := h.le_iff_of_locate_pad hk
  rcases hb : w.stop with - | b
  · exact ⟨index.length - 1, by omega, rfl⟩
  · have hrow := List.getElem?_eq_getElem hlen
    have hnum := h.isMissing_of_mem (List.getElem_mem hlen)
    have hbefore := le_of_le_of_le ((hle k _ hrow).mpr le_rfl) (hstop b hb)
    obtain ⟨-, hbnum, hbefore⟩ := (le_iff _ b).mp hbefore
    -- a window that stopped at the row's own time would close there
    refine h.exists_closingRow hlast hnum hbnum hbefore ?_
    rw [closingRow, h.locate_hit hnum hrow rfl]

end Ordered

/-- Before a window that lies before the data only the first row can be in effect. -/
theorem Window.IsBefore.eq_zero (hw : w.IsBefore first last) (h : Ordered index)
    (hfirst : index.head? = some first) (hlast : index.getLast? = some last)
    (hk : locate index time .pad = some k) (hstop : ∀ b ∈ w.stop, le time b = true) : k = 0 := by
  obtain ⟨hlen, hle⟩ := h.le_iff_of_locate_pad hk
  have hrow := List.getElem?_eq_getElem hlen
  obtain ⟨-, -, htime⟩ := (le_iff _ _).mp ((hle k _ hrow).mpr le_rfl)
  have hstop : toRat index[k] ≤ toRat (w.stop.getD last) := by
    rcases hb : w.stop with - | b
    · exact h.le_last hlast hrow
    · exact htime.trans ((le_iff _ _).mp (hstop b hb)).2.2
  by_contra hpos
  have hlt := h.before (List.head?_eq_getElem? ▸ hfirst) hrow (Nat.pos_of_ne_zero hpos)
  exact (hstop.trans hw.2).not_gt hlt

/-- Inside a window that lies after the data only the last row can be in effect. -/
theorem Window.IsAfter.eq_last (hw : w.IsAfter first last) (h : Ordered index)
    (hlast : index.getLast? = some last) (hbegun : le first time = true)
    (hk : locate index time .pad = some k) (hstart : ∀ a ∈ w.start, le a time = true) :
    k = index.length - 1 := by
  obtain ⟨hlen, hle⟩ := h.le_iff_of_locate_pad hk
  obtain ⟨-, htime, hfirst⟩ := (le_iff _ _).mp hbegun
  have hstart : toRat (w.start.getD first) ≤ toRat time := by
    rcases ha : w.start with - | a
    · exact hfirst
    · exact ((le_iff _ _).mp (hstart a ha)).2.2
  have hreached : le last time = true :=
    (le_iff _ _).mpr ⟨h.isMissing_of_mem (List.mem_of_getLast? hlast), htime, hw.1.trans hstart⟩
  have := (hle _ last (List.getLast?_eq_getElem? ▸ hlast)).mp hreached
  omega

/-- A window that pads its start selects a range of rows around the one in effect at a time in it.
-/
theorem exists_windowRows_around {rows : List (Stamped α β)} (h : Ordered (Stamped.times rows))
    (hfirst : (Stamped.times rows).head? = some first) (hbegun : le first time = true)
    (hpad : rule.startSeek = .pad) (clipped : Bool) (hw : w.Contains time)
    (hk : locate (Stamped.times rows) time .pad = some k) :
    ∃ p q, p ≤ k ∧ k ≤ q ∧
      windowRows rows w rule clipped = .ok (Stamped.extract rows p (q + 1)) := by
  have hne : Stamped.times rows ≠ [] := fun hnil => by simp [hnil] at hfirst
  have hlast := List.getLast?_eq_some_getLast hne
  generalize (Stamped.times rows).getLast hne = last at hlast
  have hstart : ∀ a ∈ w.start, isMissing a = false := fun a ha =>
    ((le_iff a time).mp (hw.start a ha)).1
  have hstop : ∀ b ∈ w.stop, isMissing b = false := fun b hb =>
    ((le_iff time b).mp (hw.stop b hb)).2.1
  have hunclipped : ∃ p q, p ≤ k ∧ k ≤ q ∧
      windowRows rows w rule false = .ok (Stamped.extract rows p (q + 1)) := by
    obtain ⟨p, hp, hopen⟩ := h.exists_openingRow_le hfirst hpad hk hw.start
    obtain ⟨q, hq, hclose⟩ := h.exists_closingRow_ge rule hlast hk hw.stop
    have hspans : Spans (Stamped.times rows) w rule p q :=
      ⟨⟨first, hfirst, hopen⟩, ⟨last, hlast, hclose⟩, hp.trans hq⟩
    exact ⟨p, q, hp, hq, hspans.windowRows (Window.check_of_bounds hstart hstop)⟩
  cases clipped with
  | false => exact hunclipped
  | true =>
    -- clipping matters only to a window beyond one end of the data
    by_cases hbefore : w.IsBefore first last
    · obtain rfl := hbefore.eq_zero h hfirst hlast hk hw.stop
      exact ⟨0, 0, le_rfl, le_rfl,
        windowRows_of_isBefore h hfirst hlast hstart hstop rule hbefore⟩
    by_cases hafter : w.IsAfter first last
    · have hend := hafter.eq_last h hlast hbegun hk hw.start
      rw [Stamped.length_times] at hend
      refine ⟨k, k, le_rfl, le_rfl, ?_⟩
      have hlen := (h.le_iff_of_locate_pad hk).1
      rw [Stamped.length_times] at hlen
      rw [windowRows_of_isAfter h hfirst hlast hstart hstop rule hbefore hafter, hend,
        Stamped.extract, show rows.length - 1 + 1 = rows.length by omega, List.take_length]
    · rw [windowRows_clipped h hfirst hlast hstart hstop rule hbefore hafter]
      exact hunclipped

/-- A window that pads its start keeps the row in effect at a time in it. -/
theorem exists_windowRows_inEffect {rows : List (Stamped α β)}
    (h : Ordered (Stamped.times rows)) (hfirst : (Stamped.times rows).head? = some first)
    (hbegun : le first time = true) (hpad : rule.startSeek = .pad) (clipped : Bool)
    (hw : w.Contains time) :
    ∃ out row, windowRows rows w rule clipped = .ok out ∧ inEffect rows time = some row ∧
      inEffect out time = some row := by
  obtain ⟨k, hk⟩ := h.exists_locate_pad_of_le hfirst hbegun
  obtain ⟨p, q, hp, hq, hout⟩ := exists_windowRows_around h hfirst hbegun hpad clipped hw hk
  have hlen := (h.le_iff_of_locate_pad hk).1
  rw [Stamped.length_times] at hlen
  have hrow : inEffect rows time = some rows[k] := by
    rw [← h.locate_inEffect time, hk, Option.bind_some, List.getElem?_eq_getElem hlen]
  exact ⟨_, rows[k], hout, hrow, (h.inEffect_extract hk hp hq).trans hrow⟩

end Edges

/-- **Windows under `pre` and `inclusive` keep the value in effect.** With or without clipping, at
every time in the window and not before the data, the part that the window selects from a table or
from a series has the same row in effect as all of the data: the same time and the same cells. -/
theorem window_keeps_value {rule : EdgeRule} (hrule : rule = .pre ∨ rule = .inclusive)
    (clipped : Bool) {w : Window α} (hw : w.Contains time) :
    (∀ t : Table α, t.Valid → (∃ first ∈ t.times.head?, le first time = true) →
      ∃ out before after, t.window w rule clipped = .ok out ∧ t.rowAt time = some before ∧
        out.rowAt time = some after ∧ after.time = before.time ∧ after.cells = before.cells) ∧
    (∀ s : Series α, s.Valid → (∃ first ∈ s.times.head?, le first time = true) →
      ∃ out sample, s.window w rule clipped = .ok out ∧
        inEffect s.samples time = some sample ∧ inEffect out.samples time = some sample ∧
        s.valueAt time = some sample.value ∧ out.valueAt time = some sample.value) := by
  have hpad : rule.startSeek = .pad := by
    rcases hrule with rfl | rfl <;> rfl
  constructor
  · rintro t ht ⟨first, hfirst, hbegun⟩
    obtain ⟨rows, row, hrows, hrow, hrow'⟩ :=
      exists_windowRows_inEffect ht.ordered hfirst hbegun hpad clipped hw
    have hvalid : (⟨t.names, rows⟩ : Table α).Valid := ht.sublist (windowRows_sublist hrows)
    have hbefore := ht.rowAt_eq time
    have hafter := hvalid.rowAt_eq time
    rw [hrow, Option.map_some, Option.map_eq_some_iff] at hbefore
    rw [hrow', Option.map_some, Option.map_eq_some_iff] at hafter
    obtain ⟨before, hbefore, heq⟩ := hbefore
    obtain ⟨after, hafter, heq'⟩ := hafter
    obtain ⟨htime, hcells⟩ := Prod.mk.inj (heq'.trans heq.symm)
    refine ⟨⟨t.names, rows⟩, before, after, ?_, hbefore, hafter, htime, hcells⟩
    rw [Table.window, hrows]
    rfl
  · rintro s hs ⟨first, hfirst, hbegun⟩
    obtain ⟨samples, sample, hsamples, hsample, hsample'⟩ :=
      exists_windowRows_inEffect hs hfirst hbegun hpad clipped hw
    have hvalid : (⟨s.name, samples⟩ : Series α).Valid :=
      Ordered.sublist hs ((windowRows_sublist hsamples).map _)
    refine ⟨⟨s.name, samples⟩, sample, ?_, hsample, hsample', ?_, ?_⟩
    · rw [Series.window, hsamples]
      rfl
    · rw [hs.valueAt_eq, hsample, Option.map_some]
    · rw [hvalid.valueAt_eq, hsample', Option.map_some]

/-- A clipped window with an infinite stop that starts between two rows, and a time after the data.
-/
theorem window_keeps_value_of_three_rows :
    let t : Table Float := ⟨["v"], [⟨0, [.int 1]⟩, ⟨3, [.int 2]⟩, ⟨5, [.int 3]⟩]⟩
    let s : Series Float := ⟨"v", [⟨0, 1⟩, ⟨3, 2⟩]⟩
    let w : Window Float := ⟨some 4, some (1 / 0)⟩
    t.Valid ∧ s.Valid ∧ w.Contains 7 ∧ le 0 (7 : Float) = true ∧
      (∃ out before after, t.window w .pre true = .ok out ∧ t.rowAt 7 = some before ∧
        out.rowAt 7 = some after ∧ after.time = before.time ∧ after.cells = before.cells) ∧
      (∃ out sample, s.window w .pre true = .ok out ∧ inEffect s.samples 7 = some sample ∧
        inEffect out.samples 7 = some sample ∧ s.valueAt 7 = some sample.value ∧
        out.valueAt 7 = some sample.value) := by
  intro t s w
  have ht : t.Valid := ⟨checkIndex_eq_ok.mp rfl, by decide, by decide⟩
  have hs : s.Valid := checkIndex_eq_ok.mp rfl
  have hw : w.Contains 7 := ⟨by decide, by decide⟩
  have hbegun : le 0 (7 : Float) = true := by decide
  have hkeeps := window_keeps_value (.inl rfl) true hw
  exact ⟨ht, hs, hw, hbegun, hkeeps.1 t ht ⟨0, rfl, hbegun⟩, hkeeps.2 s hs ⟨0, rfl, hbegun⟩⟩

end StepSignal
