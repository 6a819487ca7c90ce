import StepSignal.Proofs.Index
import StepSignal.Window

/-!
# What a window selects

A window that is clipped has both bounds inside the extent of the data, so both are found in the
index, whatever the rule. The rows in between are the ones selected.
-/

namespace StepSignal

open Scalar

/-- A value moved into the range from `lo` to `hi`. -/
def clamp (lo hi x : Rat) : Rat := max lo (min x hi)

theorem le_clamp (lo hi x : Rat) : lo ≤ clamp lo hi x := le_max_left _ _

theorem clamp_le {lo hi : Rat} (h : lo ≤ hi) (x : Rat) : clamp lo hi x ≤ hi :=
  max_le h (min_le_right _ _)

theorem clamp_mono {x y : Rat} (lo hi : Rat) (h : x ≤ y) : clamp lo hi x ≤ clamp lo hi y :=
  max_le_max_left _ (min_le_min_right _ h)

theorem clamp_of_le {lo hi x : Rat} (h : x ≤ lo) : clamp lo hi x = lo :=
  max_eq_left ((min_le_left _ _).trans h)

theorem clamp_of_ge {lo hi x : Rat} (hle : lo ≤ hi) (h : hi ≤ x) : clamp lo hi x = hi := by
  rw [clamp, min_eq_right h, max_eq_right hle]

theorem clamp_of_mem {lo hi x : Rat} (hlo : lo ≤ x) (hhi : x ≤ hi) : clamp lo hi x = x := by
  rw [clamp, min_eq_left hhi, max_eq_right hlo]

/-- What holds of the edges of the data and of a bound holds of the bound after clipping. -/
theorem of_mem_edges {α : Type} (holds : α → Prop) {bound : Option α} {first last d x : α}
    (hbound : ∀ a ∈ bound, holds a) (hfirst : holds first) (hlast : holds last) (hd : holds d)
    (hx : x ∈ [first, last, bound.getD d]) : holds x := by
  have hget : holds (bound.getD d) := by
    cases h : bound with
    | none => exact hd
    | some a => exact hbound a h
  simp only [List.mem_cons, List.not_mem_nil, or_false] at hx
  rcases hx with rfl | rfl | rfl <;> assumption

/-! ## Ranges of rows -/

section Range

variable {β : Type} {xs : List β} {lo hi i : Nat}

theorem range_sublist (xs : List β) (lo hi : Nat) : ((xs.take hi).drop lo).Sublist xs :=
  (List.drop_sublist _ _).trans (List.take_sublist _ _)

theorem length_range (h : hi < xs.length) : ((xs.take (hi + 1)).drop lo).length = hi + 1 - lo := by
  rw [List.length_drop, List.length_take]
  omega

theorem getElem?_range {x : β} (hx : ((xs.take (hi + 1)).drop lo)[i]? = some x) :
    xs[lo + i]? = some x ∧ lo + i ≤ hi := by
  have hlen := (List.getElem?_eq_some_iff.mp hx).1
  rw [List.length_drop, List.length_take] at hlen
  rw [List.getElem?_drop, List.getElem?_take_of_lt (by omega)] at hx
  exact ⟨hx, by omega⟩

theorem getElem?_range_of_mem (hlo : lo ≤ i) (hhi : i ≤ hi) :
    ((xs.take (hi + 1)).drop lo)[i - lo]? = xs[i]? := by
  rw [List.getElem?_drop, Nat.add_sub_cancel' hlo, List.getElem?_take_of_lt (by omega)]

end Range

section Extract

variable {α β : Type} {rows : List (Stamped α β)} {p q : Nat}

theorem Stamped.extract_sublist (rows : List (Stamped α β)) (p q : Nat) :
    (extract rows p q).Sublist rows := range_sublist rows p q

theorem Stamped.length_extract (h : q < rows.length) :
    (extract rows p (q + 1)).length = q + 1 - p := length_range h

theorem Stamped.getElem?_times {i : Nat} {row : Stamped α β} (h : rows[i]? = some row) :
    (times rows)[i]? = some row.time := by
  rw [times, List.getElem?_map, h, Option.map_some]

theorem Stamped.getElem?_times_extract {i : Nat} {t : α}
    (hi : (times (extract rows p (q + 1)))[i]? = some t) :
    (times rows)[p + i]? = some t ∧ p + i ≤ q := by
  rw [times_extract] at hi
  exact getElem?_range hi

/-- A range of a range of rows. -/
theorem Stamped.extract_extract {lo hi : Nat} (hlo : lo ≤ p) (hpq : p ≤ q) (hhi : q ≤ hi) :
    extract (extract rows lo (hi + 1)) (p - lo) (q - lo + 1) = extract rows p (q + 1) := by
  have htake : min (lo + (q - lo + 1)) (hi + 1) = q + 1 := by omega
  simp only [extract, List.take_drop, List.take_take, List.drop_drop]
  rw [Nat.add_sub_cancel' hlo, htake]

variable [Scalar α]

/-- A window selects some of the rows, in their order. -/
theorem windowRows_sublist {w : Window α} {rule : EdgeRule} {clipped : Bool}
    {out : List (Stamped α β)} (h : windowRows rows w rule clipped = .ok out) :
    out.Sublist rows := by
  obtain ⟨⟨start, stop⟩, -, h⟩ := bind_eq_ok.mp h
  obtain rfl := Except.ok.inj h
  exact Stamped.extract_sublist _ _ _

theorem Ordered.extract [LawfulScalar α] (h : Ordered (Stamped.times rows)) (p q : Nat) :
    Ordered (Stamped.times (Stamped.extract rows p q)) :=
  h.sublist ((Stamped.extract_sublist rows p q).map _)

end Extract

/-! ## Clipped windows -/

variable {α : Type} [Scalar α] [LawfulScalar α]

namespace Window

/-- The bounds of a window are numbers, and the start is not after the stop. -/
structure Proper (w : Window α) : Prop where
  start : ∀ a ∈ w.start, isMissing a = false
  stop : ∀ b ∈ w.stop, isMissing b = false
  le : ∀ a ∈ w.start, ∀ b ∈ w.stop, toRat a ≤ toRat b

variable {w : Window α} {first last : α}

theorem Proper.check (hw : w.Proper) : w.check = .ok () := by
  obtain ⟨start, stop⟩ := w
  obtain ⟨hstart, hstop, -⟩ := hw
  unfold Window.check
  cases start <;> cases stop <;> simp_all

/-- Clipping moves both bounds into the extent of the data. -/
theorem Proper.clip (hw : w.Proper) (hfirst : isMissing first = false)
    (hlast : isMissing last = false) (hle : toRat first ≤ toRat last) :
    ∃ s e, w.clip first last = ⟨some s, some e⟩ ∧
      toRat s = clamp (toRat first) (toRat last) (toRat (w.start.getD first)) ∧
      toRat e = clamp (toRat first) (toRat last) (toRat (w.stop.getD last)) ∧
      s ∈ [first, last, w.start.getD first] ∧ e ∈ [first, last, w.stop.getD last] := by
  have hstart : isMissing (w.start.getD first) = false := by
    cases h : w.start with
    | none => exact hfirst
    | some a => exact hw.start a h
  have hstop : isMissing (w.stop.getD last) = false := by
    cases h : w.stop with
    | none => exact hlast
    | some b => exact hw.stop b h
  -- bounds that are both set are in order; an unset one is at the edge of the data
  have horder : toRat (w.start.getD first) ≤ toRat first ∨
      toRat last ≤ toRat (w.stop.getD last) ∨
      toRat (w.start.getD first) ≤ toRat (w.stop.getD last) := by
    rcases ha : w.start with - | a
    · exact .inl le_rfl
    · rcases hb : w.stop with - | b
      · exact .inr (.inl le_rfl)
      · exact .inr (.inr (hw.le a ha b hb))
  unfold Window.clip
  generalize w.start.getD first = a at *
  generalize w.stop.getD last = b at *
  simp only [le_eq, hstart, hstop, hfirst, hlast, Bool.and_eq_true, decide_eq_true_eq]
  split <;> rename_i hbefore
  · exact ⟨first, first, rfl, (clamp_of_le hbefore.1).symm, (clamp_of_le hbefore.2).symm,
      by simp, by simp⟩
  split <;> rename_i hafter
  · exact ⟨last, last, rfl, (clamp_of_ge hle hafter.1).symm, (clamp_of_ge hle hafter.2).symm,
      by simp, by simp⟩
  -- neither bound lies beyond the other end of the data
  have ha : toRat a ≤ toRat last := by
    by_contra hgt
    have hgt := not_le.mp hgt
    have hb : toRat b < toRat last := not_le.mp fun hc => hafter ⟨hgt.le, hc⟩
    rcases horder with h | h | h <;> linarith
  have hb : toRat first ≤ toRat b := by
    by_contra hlt
    have hlt := not_le.mp hlt
    have ha : toRat first < toRat a := not_le.mp fun hc => hbefore ⟨hc, hlt.le⟩
    rcases horder with h | h | h <;> linarith
  refine ⟨_, _, rfl, ?_, ?_, ?_, ?_⟩
  · rcases max_cases hstart hfirst with ⟨heq, h⟩ | ⟨heq, h⟩
    · rw [heq, clamp_of_mem h.le ha]
    · rw [heq, clamp_of_le h]
  · rcases min_cases hstop hlast with ⟨heq, h⟩ | ⟨heq, h⟩
    · rw [heq, clamp_of_mem hb h.le]
    · rw [heq, clamp_of_ge hle h]
  · rcases max_cases hstart hfirst with ⟨heq, -⟩ | ⟨heq, -⟩ <;> simp [heq]
  · rcases min_cases hstop hlast with ⟨heq, -⟩ | ⟨heq, -⟩ <;> simp [heq]

end Window

/-- The times `s` and `e` that a clipped window moves its bounds to, and the rows `p` and `q` that
are found for them. -/
structure Clipped (index : List α) (w : Window α) (rule : EdgeRule) (first last s e : α)
    (p q : Nat) : Prop where
  head : index.head? = some first
  getLast : index.getLast? = some last
  start_eq : toRat s = clamp (toRat first) (toRat last) (toRat (w.start.getD first))
  stop_eq : toRat e = clamp (toRat first) (toRat last) (toRat (w.stop.getD last))
  start_mem : s ∈ [first, last, w.start.getD first]
  stop_mem : e ∈ [first, last, w.stop.getD last]
  opens : locate index s rule.startSeek = some p
  closes : locate index e rule.stopSeek = some q
  range : windowRange index w rule true = .ok (if p ≤ q then (p, q + 1) else (0, 0))

/-- A clipped window of an ordered index finds a row for both of its bounds. -/
theorem exists_clipped {index : List α} {w : Window α} (h : Ordered index) (hne : index ≠ [])
    (hw : w.Proper) (rule : EdgeRule) :
    ∃ first last s e p q, Clipped index w rule first last s e p q := by
  have hfirst := List.head?_eq_some_head hne
  have hlast := List.getLast?_eq_some_getLast hne
  generalize index.head hne = first at hfirst
  generalize index.getLast hne = last at hlast
  have hle := h.first_le hfirst (List.getLast?_eq_getElem? ▸ hlast)
  have hf := h.isMissing_of_mem (List.mem_of_head? hfirst)
  have hl := h.isMissing_of_mem (List.mem_of_getLast? hlast)
  obtain ⟨s, e, hclip, hs, he, hsmem, hemem⟩ := hw.clip hf hl hle
  have hsnum := of_mem_edges (isMissing · = false) hw.start hf hl hf hsmem
  have henum := of_mem_edges (isMissing · = false) hw.stop hf hl hl hemem
  -- after clipping both bounds are inside, where every seek finds a row
  obtain ⟨p, hp⟩ := h.exists_locate hsnum hfirst hlast (hs ▸ le_clamp _ _ _)
    (hs ▸ clamp_le hle _) rule.startSeek
  obtain ⟨q, hq⟩ := h.exists_locate henum hfirst hlast (he ▸ le_clamp _ _ _)
    (he ▸ clamp_le hle _) rule.stopSeek
  refine ⟨first, last, s, e, p, q, hfirst, hlast, hs, he, hsmem, hemem, hp, hq, ?_⟩
  simp only [windowRange, hw.check, ok_bind, hfirst, hlast, if_true, hclip, openingRow, hp,
    closingRow, hq]
  split <;> rfl

namespace Clipped

variable {index : List α} {w : Window α} {rule : EdgeRule} {first last s e : α} {p q : Nat}

theorem first_mem (hc : Clipped index w rule first last s e p q) : first ∈ index :=
  List.mem_of_head? hc.head

theorem last_mem (hc : Clipped index w rule first last s e p q) : last ∈ index :=
  List.mem_of_getLast? hc.getLast

theorem first_le_last (hc : Clipped index w rule first last s e p q) (h : Ordered index) :
    toRat first ≤ toRat last :=
  h.first_le hc.head (List.getLast?_eq_getElem? ▸ hc.getLast)

theorem isMissing_start (hc : Clipped index w rule first last s e p q) (h : Ordered index)
    (hw : w.Proper) : isMissing s = false :=
  have hf := h.isMissing_of_mem hc.first_mem
  of_mem_edges (isMissing · = false) hw.start hf (h.isMissing_of_mem hc.last_mem) hf hc.start_mem

theorem isMissing_stop (hc : Clipped index w rule first last s e p q) (h : Ordered index)
    (hw : w.Proper) : isMissing e = false :=
  have hl := h.isMissing_of_mem hc.last_mem
  of_mem_edges (isMissing · = false) hw.stop (h.isMissing_of_mem hc.first_mem) hl hl hc.stop_mem

/-- A clipped window closes no earlier than it opens. -/
theorem start_le_stop (hc : Clipped index w rule first last s e p q) (h : Ordered index)
    (hw : w.Proper) : toRat s ≤ toRat e := by
  have hle := hc.first_le_last h
  rw [hc.start_eq, hc.stop_eq]
  rcases ha : w.start with - | a
  · rw [Option.getD_none, clamp_of_le le_rfl]
    exact le_clamp _ _ _
  rcases hb : w.stop with - | b
  · rw [Option.getD_none, clamp_of_ge hle le_rfl]
    exact clamp_le hle _
  · exact clamp_mono _ _ (hw.le a ha b hb)

theorem stands_start (hc : Clipped index w rule first last s e p q) (h : Ordered index)
    (hw : w.Proper) : Stands index s p := h.stands_of_locate (hc.isMissing_start h hw) hc.opens

theorem stands_stop (hc : Clipped index w rule first last s e p q) (h : Ordered index)
    (hw : w.Proper) : Stands index e q := h.stands_of_locate (hc.isMissing_stop h hw) hc.closes

/-! The edges of the data are rows of their own times, so a bound that clipping moves to an edge is
found there, whatever the rule. -/

/-- A window that does not start after the first time opens at the first row. -/
theorem opens_first (hc : Clipped index w rule first last s e p q) (h : Ordered index)
    (hw : w.Proper) (hle : toRat (w.start.getD first) ≤ toRat first) : p = 0 :=
  h.eq_of_locate (hc.isMissing_start h hw) (List.head?_eq_getElem? ▸ hc.head)
    (hc.start_eq.trans (clamp_of_le hle)).symm hc.opens

/-- A window that does not start before the last time opens at the last row. -/
theorem opens_last (hc : Clipped index w rule first last s e p q) (h : Ordered index)
    (hw : w.Proper) (hle : toRat last ≤ toRat (w.start.getD first)) : p = index.length - 1 :=
  h.eq_of_locate (hc.isMissing_start h hw) (List.getLast?_eq_getElem? ▸ hc.getLast)
    (hc.start_eq.trans (clamp_of_ge (hc.first_le_last h) hle)).symm hc.opens

/-- A window that does not stop after the first time closes at the first row. -/
theorem closes_first (hc : Clipped index w rule first last s e p q) (h : Ordered index)
    (hw : w.Proper) (hle : toRat (w.stop.getD last) ≤ toRat first) : q = 0 :=
  h.eq_of_locate (hc.isMissing_stop h hw) (List.head?_eq_getElem? ▸ hc.head)
    (hc.stop_eq.trans (clamp_of_le hle)).symm hc.closes

/-- A window that does not stop before the last time closes at the last row. -/
theorem closes_last (hc : Clipped index w rule first last s e p q) (h : Ordered index)
    (hw : w.Proper) (hle : toRat last ≤ toRat (w.stop.getD last)) : q = index.length - 1 :=
  h.eq_of_locate (hc.isMissing_stop h hw) (List.getLast?_eq_getElem? ▸ hc.getLast)
    (hc.stop_eq.trans (clamp_of_ge (hc.first_le_last h) hle)).symm hc.closes

/-- The rows after the one that the window opens at are later than the start. -/
theorem start_lt (hc : Clipped index w rule first last s e p q) (h : Ordered index)
    (hw : w.Proper) {a : α} (ha : w.start = some a) {i : Nat} {t : α} (hi : index[i]? = some t)
    (hpi : p < i) : toRat a < toRat t := by
  have hlt := (hc.stands_start h hw).after i t hi hpi
  have hmax := h.le_last hc.getLast hi
  rw [hc.start_eq, ha, Option.getD_some, clamp] at hlt
  -- only a start moved back to the last time could be at a row, and no row comes after that one
  rcases min_cases (toRat a) (toRat last) with ⟨hmin, -⟩ | ⟨hmin, -⟩
  · exact (le_max_right _ _).trans_lt (hmin ▸ hlt)
  · exact absurd ((le_max_right _ _).trans_lt (hmin ▸ hlt)) hmax.not_gt

/-- The rows before the one that the window closes at are earlier than the stop. -/
theorem lt_stop (hc : Clipped index w rule first last s e p q) (h : Ordered index)
    (hw : w.Proper) {b : α} (hb : w.stop = some b) {i : Nat} {t : α} (hi : index[i]? = some t)
    (hiq : i < q) : toRat t < toRat b := by
  have hlt := (hc.stands_stop h hw).before i t hi hiq
  have hmin := h.first_le hc.head hi
  rw [hc.stop_eq, hb, Option.getD_some, clamp] at hlt
  -- only a stop moved up to the first time could be at a row, and no row comes before that one
  rcases lt_max_iff.mp hlt with hfirst | hstop
  · exact absurd hfirst hmin.not_gt
  · exact hstop.trans_le (min_le_left _ _)

/-- The rows that a clipped window selects. -/
theorem windowRows_eq {β : Type} {rows : List (Stamped α β)}
    (hc : Clipped (Stamped.times rows) w rule first last s e p q) :
    windowRows rows w rule true = .ok (if p ≤ q then Stamped.extract rows p (q + 1) else []) := by
  rw [windowRows, hc.range, ok_bind]
  by_cases hpq : p ≤ q
  · rw [if_pos hpq, if_pos hpq]
    rfl
  · rw [if_neg hpq, if_neg hpq]
    rfl

end Clipped

/-- A clipped window that the data lie in selects all rows. -/
theorem windowRows_all {β : Type} {rows : List (Stamped α β)} {w : Window α}
    (h : Ordered (Stamped.times rows)) (hw : w.Proper)
    (hlo : ∀ first ∈ (Stamped.times rows).head?, toRat (w.start.getD first) ≤ toRat first)
    (hhi : ∀ last ∈ (Stamped.times rows).getLast?, toRat last ≤ toRat (w.stop.getD last))
    (rule : EdgeRule) : windowRows rows w rule true = .ok rows := by
  by_cases hne : Stamped.times rows = []
  · rw [windowRows, windowRange, hw.check, hne, List.map_eq_nil_iff.mp hne]
    rfl
  obtain ⟨first, last, s, e, p, q, hc⟩ := exists_clipped h hne hw rule
  have hp := hc.opens_first h hw (hlo first hc.head)
  have hq := hc.closes_last h hw (hhi last hc.getLast)
  rw [Stamped.length_times] at hq
  rw [hc.windowRows_eq, hp, if_pos (Nat.zero_le q), Stamped.extract, List.drop_zero,
    List.take_of_length_le (by omega)]

/-! ## Padded windows -/

/-- A test that holds in a range of places filters that range. -/
theorem filter_eq_extract {β : Type} {keep : β → Bool} {xs : List β} {p q : Nat}
    (h : ∀ i x, xs[i]? = some x → (keep x = true ↔ p ≤ i ∧ i < q)) :
    xs.filter keep = (xs.take q).drop p := by
  induction xs generalizing p q with
  | nil => simp
  | cons x xs ih =>
    have hx := h 0 x rfl
    have hrest : xs.filter keep = (xs.take (q - 1)).drop (p - 1) := by
      refine ih fun i y hi => ?_
      rw [h (i + 1) y hi]
      omega
    rw [List.filter_cons, hrest]
    rcases q with - | q
    · simp [show keep x = false by simpa using hx]
    · rcases p with - | p
      · simp [hx]
      · simp [show keep x = false by simpa using hx]

/-- A row after `start` that a window does not end before. -/
def Window.takes {β : Type} (w : Window α) (start : Rat) (row : Stamped α β) : Bool :=
  start < toRat row.time && w.stop.all fun stop => toRat row.time ≤ toRat stop

namespace Clipped

variable {index : List α} {w : Window α} {first last s e : α} {p q i : Nat} {t : α}

/-- Padding opens at the last row that is not after the start. -/
theorem le_start_iff (hc : Clipped index w .pre first last s e p q) (h : Ordered index)
    (hw : w.Proper) (hi : index[i]? = some t) : toRat t ≤ toRat s ↔ i ≤ p := by
  have hstands := hc.stands_start h hw
  have hp := List.getElem?_eq_getElem hstands.lt_length
  constructor
  · intro hle
    by_contra hlt
    exact (hstands.after i t hi (not_le.mp hlt)).not_ge hle
  · intro hle
    exact (h.le_of_le hi hp hle).trans (h.locate_pad_le (hc.isMissing_start h hw) hc.opens hp)

/-- Padding closes at the last row that the window does not end before. -/
theorem le_stop_iff (hc : Clipped index w .pre first last s e p q) (h : Ordered index)
    (hw : w.Proper) (hi : index[i]? = some t) (hpos : 0 < i) :
    (∀ b ∈ w.stop, toRat t ≤ toRat b) ↔ i ≤ q := by
  have hstands := hc.stands_stop h hw
  have hq := List.getElem?_eq_getElem hstands.lt_length
  have hlast := h.le_last hc.getLast hi
  constructor
  · intro hle
    by_contra hlt
    have hafter := hstands.after i t hi (not_le.mp hlt)
    rw [hc.stop_eq, clamp, max_lt_iff, min_lt_iff] at hafter
    rcases hb : w.stop with - | b
    · rw [hb, Option.getD_none] at hafter
      rcases hafter.2 with hlt | hlt <;> exact hlt.not_ge hlast
    · have hle := hle b hb
      rw [hb, Option.getD_some] at hafter
      rcases hafter.2 with hlt | hlt
      · exact hlt.not_ge hle
      · exact hlt.not_ge hlast
  · intro hle b hb
    have hfirst := h.before (List.head?_eq_getElem? ▸ hc.head) hi hpos
    have hte := (h.le_of_le hi hq hle).trans
      (h.locate_pad_le (hc.isMissing_stop h hw) hc.closes hq)
    rw [hc.stop_eq, Option.mem_def.mp hb, Option.getD_some, clamp, le_max_iff] at hte
    rcases hte with hte | hte
    · exact absurd hte hfirst.not_ge
    · exact hte.trans (min_le_left _ _)

/-- Padding opens no later than it closes. -/
theorem opens_le_closes (hc : Clipped index w .pre first last s e p q) (h : Ordered index)
    (hw : w.Proper) : p ≤ q := by
  have hp := List.getElem?_eq_getElem (hc.stands_start h hw).lt_length
  by_contra hlt
  -- the row at the opening would be later than the stop, but it is not later than the start
  have hes := (hc.stands_stop h hw).after p _ hp (not_le.mp hlt)
  exact (((hc.le_start_iff h hw hp).mpr le_rfl).trans (hc.start_le_stop h hw)).not_gt hes

end Clipped

section Padded

variable {β : Type} {rows : List (Stamped α β)} {w : Window α} {first last : α}

/-- A clipped window under the rule `pre` that opens within the data selects the row in effect at
its start and all later rows up to its stop. -/
theorem windowRows_pre (h : Ordered (Stamped.times rows))
    (hfirst : (Stamped.times rows).head? = some first)
    (hlast : (Stamped.times rows).getLast? = some last) (hw : w.Proper)
    (hlo : toRat first ≤ toRat (w.start.getD first))
    (hhi : toRat (w.start.getD first) ≤ toRat last) :
    ∃ row,
      (rows.filter fun row => toRat row.time ≤ toRat (w.start.getD first)).getLast? = some row ∧
      windowRows rows w .pre true
        = .ok (row :: rows.filter (w.takes (toRat (w.start.getD first)))) := by
  have hne : Stamped.times rows ≠ [] := fun hnil => by simp [hnil] at hfirst
  obtain ⟨first', last', s, e, p, q, hc⟩ := exists_clipped h hne hw .pre
  obtain rfl : first' = first := Option.some.inj (hc.head.symm.trans hfirst)
  obtain rfl : last' = last := Option.some.inj (hc.getLast.symm.trans hlast)
  have hs := hc.start_eq
  rw [clamp_of_mem hlo hhi] at hs
  -- the rows not after the start are those up to `p`, and the row in effect is the last of them
  have hstart : (rows.filter fun row => toRat row.time ≤ toRat (w.start.getD first'))
      = (rows.take (p + 1)).drop 0 := by
    refine filter_eq_extract fun i row hi => ?_
    rw [decide_eq_true_eq, ← hs, hc.le_start_iff h hw (Stamped.getElem?_times hi)]
    omega
  -- the rows after the start that the window does not end before go from there up to `q`
  have hinside : rows.filter (w.takes (toRat (w.start.getD first')))
      = (rows.take (q + 1)).drop (p + 1) := by
    refine filter_eq_extract fun i row hi => ?_
    have hlt := hc.le_start_iff h hw (Stamped.getElem?_times hi)
    rw [Window.takes, Bool.and_eq_true, decide_eq_true_eq, ← hs, ← not_le, hlt]
    refine and_congr_left' ?_ |>.trans (and_congr_right fun hpi => ?_)
    · omega
    · rw [Option.all_eq_true]
      simp only [decide_eq_true_eq]
      exact (hc.le_stop_iff h hw (Stamped.getElem?_times hi) (by omega)).trans Nat.lt_succ_iff.symm
  have hp := (hc.stands_start h hw).lt_length
  rw [Stamped.length_times] at hp
  refine ⟨rows[p], ?_, ?_⟩
  · rw [hstart, List.drop_zero, List.getLast?_take, if_neg (Nat.succ_ne_zero p)]
    simp [hp]
  · have hlen : p < (rows.take (q + 1)).length := by
      have := hc.opens_le_closes h hw
      rw [List.length_take]
      omega
    rw [hc.windowRows_eq, if_pos (hc.opens_le_closes h hw), hinside, Stamped.extract,
      List.drop_eq_getElem_cons hlen, List.getElem_take]

end Padded

end StepSignal
