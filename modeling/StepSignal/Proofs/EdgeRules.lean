import Mathlib.Data.Set.Basic
import StepSignal.Proofs.WindowInEffect

/-!
# The order of the edge rules

Where a time misses the index, padding finds the row before it, filling back the row after it, and
the closest row is one of these two. So a rule that looks further ahead for its start and less far
ahead for its stop selects fewer rows. By this measure `exclusive` comes inside every rule and every
rule inside `inclusive`, wherever the bounds lie and in whatever order.

The rules differ only where a bound misses the index. Between bounds that are times of the data all
of them select the same rows.
-/

namespace StepSignal

open Scalar

variable {α : Type} [Scalar α] [LawfulScalar α] {index : List α} {target first last : α}

/-! ## The order of seeks -/

/-- How far ahead a seek looks: padding looks back, and filling back looks ahead. -/
def Seek.ahead : Seek → Nat
  | pad => 0
  | nearest => 1
  | backfill => 2

namespace Ordered

variable {near far : Seek} {p q : Nat}

/-- Times that are there have a first and a last one, and both are numbers. -/
theorem exists_ends (h : Ordered index) (hne : index ≠ []) :
    ∃ first last, index.head? = some first ∧ index.getLast? = some last ∧
      isMissing first = false ∧ isMissing last = false := by
  have hfirst := List.head?_eq_some_head hne
  have hlast := List.getLast?_eq_some_getLast hne
  exact ⟨_, _, hfirst, hlast, h.isMissing_of_mem (List.mem_of_head? hfirst),
    h.isMissing_of_mem (List.mem_of_getLast? hlast)⟩

/-- A seek that looks further ahead finds no earlier row. -/
theorem locate_le_locate (h : Ordered index) (ht : isMissing target = false)
    (hahead : near.ahead ≤ far.ahead) (hp : locate index target near = some p)
    (hq : locate index target far = some q) : p ≤ q := by
  rcases h.hits_or_misses ht with ⟨i, t, hi, heq⟩ | ⟨n, hm⟩
  · rw [h.locate_hit ht hi heq] at hp hq
    exact (Option.some.inj (hp.symm.trans hq)).le
  have hnear := h.locate_miss_cases ht hm hp
  have hfar := h.locate_miss_cases ht hm hq
  by_contra hlt
  -- otherwise the time lies between the rows `q` and `p`, so both seeks look at both sides of it
  have hpad : near ≠ .pad := by
    rcases hnear with ⟨hrow, -⟩ | ⟨-, -, hpad⟩
    · omega
    · exact hpad
  have hback : far ≠ .backfill := by
    rcases hfar with ⟨-, hback⟩ | ⟨hrow, -⟩
    · exact hback
    · omega
  have hsame : near = far := by
    cases near <;> cases far <;> simp_all [Seek.ahead]
  rw [hsame, hq] at hp
  have := Option.some.inj hp
  omega

/-- From the first time on, what one seek finds has a row that is no later for every seek that looks
less far ahead. -/
theorem exists_locate_le (h : Ordered index) (ht : isMissing target = false)
    (hfirst : index.head? = some first) (hlo : toRat first ≤ toRat target)
    (hahead : near.ahead ≤ far.ahead) (hq : locate index target far = some q) :
    ∃ p ≤ q, locate index target near = some p := by
  have hmem := List.mem_of_head? hfirst
  rcases hp : locate index target near with - | p
  · rcases (h.locate_eq_none_iff ht (List.ne_nil_of_mem hmem)).mp hp with ⟨-, hall⟩ | ⟨rfl, -⟩
    · exact absurd hlo (hall first hmem).not_ge
    · -- no seek looks further ahead than filling back
      have hfar : far = .backfill := by
        cases far <;> simp_all [Seek.ahead]
      rw [← hfar, hq] at hp
      cases hp
  · exact ⟨p, h.locate_le_locate ht hahead hp hq, rfl⟩

/-- Up to the last time, what one seek finds has a row that is no earlier for every seek that looks
further ahead. -/
theorem exists_le_locate (h : Ordered index) (ht : isMissing target = false)
    (hlast : index.getLast? = some last) (hhi : toRat target ≤ toRat last)
    (hahead : near.ahead ≤ far.ahead) (hp : locate index target near = some p) :
    ∃ q, p ≤ q ∧ locate index target far = some q := by
  have hmem := List.mem_of_getLast? hlast
  rcases hq : locate index target far with - | q
  · rcases (h.locate_eq_none_iff ht (List.ne_nil_of_mem hmem)).mp hq with ⟨rfl, -⟩ | ⟨-, hall⟩
    · -- no seek looks less far ahead than padding
      have hnear : near = .pad := by
        cases near <;> simp_all [Seek.ahead]
      rw [← hnear, hp] at hq
      cases hq
    · exact absurd hhi (hall last hmem).not_ge
  · exact ⟨q, h.locate_le_locate ht hahead hp hq, rfl⟩

end Ordered

/-! ## The order of rules -/

namespace EdgeRule

/-- One rule comes inside another one: it looks no less far ahead for its start, and no further
ahead for its stop. -/
def Inside (rule outer : EdgeRule) : Prop :=
  outer.startSeek.ahead ≤ rule.startSeek.ahead ∧ rule.stopSeek.ahead ≤ outer.stopSeek.ahead

theorem exclusive_inside (rule : EdgeRule) : exclusive.Inside rule := by
  cases rule <;> simp [Inside, startSeek, stopSeek, Seek.ahead]

theorem inside_inclusive (rule : EdgeRule) : rule.Inside inclusive := by
  cases rule <;> simp [Inside, startSeek, stopSeek, Seek.ahead]

end EdgeRule

/-! ## The rows that a window selects -/

section Selection

variable {w : Window α} {rule outer : EdgeRule} {p q row : Nat}

/-- A time lies in a window with two bounds when it lies between them. -/
theorem Window.contains_iff {a b t : α} (hanum : isMissing a = false) (hbnum : isMissing b = false)
    (hnum : isMissing t = false) :
    (Window.mk (some a) (some b)).Contains t ↔ toRat a ≤ toRat t ∧ toRat t ≤ toRat b := by
  constructor
  · intro hc
    exact ⟨((le_iff a t).mp (hc.start a rfl)).2.2, ((le_iff t b).mp (hc.stop b rfl)).2.2⟩
  · rintro ⟨hat, htb⟩
    refine ⟨fun x hx => ?_, fun x hx => ?_⟩
    · obtain rfl := Option.some.inj hx
      exact (le_iff _ _).mpr ⟨hanum, hnum, hat⟩
    · obtain rfl := Option.some.inj hx
      exact (le_iff _ _).mpr ⟨hnum, hbnum, htb⟩

/-- The positions of the rows that a window selects. -/
def Window.selection (w : Window α) (index : List α) (rule : EdgeRule) (clipped : Bool) : Set Nat :=
  {row | ∃ start stop, windowRange index w rule clipped = .ok (start, stop) ∧
    start ≤ row ∧ row < stop}

omit [LawfulScalar α] in
/-- Without clipping a window selects the rows that it spans. -/
theorem mem_selection_iff (hw : w.check = .ok ()) :
    row ∈ w.selection index rule false ↔ ∃ p q, Spans index w rule p q ∧ p ≤ row ∧ row ≤ q := by
  constructor
  · rintro ⟨start, stop, hrange, hlo, hhi⟩
    by_cases hs : ∃ p q, Spans index w rule p q
    · obtain ⟨p, q, hs⟩ := hs
      rw [hs.windowRange hw] at hrange
      obtain ⟨rfl, rfl⟩ := Prod.mk.inj (Except.ok.inj hrange)
      exact ⟨p, q, hs, hlo, by omega⟩
    · rw [windowRange_of_not_spans (fun p q hpq => hs ⟨p, q, hpq⟩) hw] at hrange
      obtain ⟨rfl, rfl⟩ := Prod.mk.inj (Except.ok.inj hrange)
      omega
  · rintro ⟨p, q, hs, hlo, hhi⟩
    exact ⟨p, q + 1, hs.windowRange hw, hlo, by omega⟩

variable (h : Ordered index) (hstart : ∀ a ∈ w.start, isMissing a = false)
  (hstop : ∀ b ∈ w.stop, isMissing b = false)

include h hstart hstop

/-- Under an outer rule a window spans the rows that it spans under a rule inside it. -/
theorem Spans.of_inside (hrule : rule.Inside outer) (hs : Spans index w rule p q) :
    ∃ lo hi, Spans index w outer lo hi ∧ lo ≤ p ∧ q ≤ hi := by
  obtain ⟨⟨first, hfirst, hopen⟩, ⟨last, hlast, hclose⟩, hle⟩ := hs
  have hf := h.isMissing_of_mem (List.mem_of_head? hfirst)
  have hl := h.isMissing_of_mem (List.mem_of_getLast? hlast)
  have hlo : ∃ lo ≤ p, openingRow index first outer w.start = some lo := by
    rcases ha : w.start with - | a
    · exact ⟨0, Nat.zero_le p, rfl⟩
    · have hanum := hstart a ha
      rw [ha, h.openingRow_eq hfirst hanum] at hopen
      rw [h.openingRow_eq hfirst hanum]
      have hfa : toRat first ≤ toRat (Scalar.max a first) := by
        rw [toRat_max hanum hf]
        exact le_max_right _ _
      exact h.exists_locate_le (isMissing_max hanum hf) hfirst hfa hrule.1 hopen
  have hhi : ∃ hi, q ≤ hi ∧ closingRow index last outer w.stop = some hi := by
    rcases hb : w.stop with - | b
    · rw [hb] at hclose
      exact ⟨q, le_rfl, hclose⟩
    · have hbnum := hstop b hb
      rw [hb, h.closingRow_eq hlast hbnum] at hclose
      rw [h.closingRow_eq hlast hbnum]
      have hbl : toRat (Scalar.min b last) ≤ toRat last := by
        rw [toRat_min hbnum hl]
        exact min_le_right _ _
      exact h.exists_le_locate (isMissing_min hbnum hl) hlast hbl hrule.2 hclose
  obtain ⟨lo, hlo, hopen⟩ := hlo
  obtain ⟨hi, hhi, hclose⟩ := hhi
  exact ⟨lo, hi, ⟨⟨first, hfirst, hopen⟩, ⟨last, hlast, hclose⟩, by omega⟩, hlo, hhi⟩

/-- Without clipping a window selects a range of the data. -/
theorem exists_windowRange_unclipped (rule : EdgeRule) :
    ∃ p q, windowRange index w rule false = .ok (p, q) ∧ p ≤ q ∧ q ≤ index.length := by
  have hcheck := Window.check_of_bounds hstart hstop
  by_cases hs : ∃ p q, Spans index w rule p q
  · obtain ⟨p, q, hs⟩ := hs
    have hlen := hs.closes_in h hstop
    have hle := hs.le
    exact ⟨p, q + 1, hs.windowRange hcheck, by omega, by omega⟩
  · exact ⟨0, 0, windowRange_of_not_spans (fun p q hpq => hs ⟨p, q, hpq⟩) hcheck, le_rfl,
      Nat.zero_le _⟩

/-- Without clipping a window selects, under an outer rule, all rows that it selects under a rule
inside it. -/
theorem selection_subset_unclipped (hrule : rule.Inside outer) :
    w.selection index rule false ⊆ w.selection index outer false := by
  have hcheck := Window.check_of_bounds hstart hstop
  intro row hrow
  rw [mem_selection_iff hcheck] at hrow ⊢
  obtain ⟨p, q, hs, hpr, hrq⟩ := hrow
  obtain ⟨lo, hi, houter, hlo, hhi⟩ := hs.of_inside h hstart hstop hrule
  exact ⟨lo, hi, houter, by omega, by omega⟩

/-- A window selects the rows inside it, whatever the rule. -/
theorem mem_selection_of_contains {t : α} (hrow : index[row]? = some t) (ht : w.Contains t) :
    row ∈ w.selection index rule false := by
  have hmem := List.mem_of_getElem? hrow
  have hnum := h.isMissing_of_mem hmem
  have hne := List.ne_nil_of_mem hmem
  obtain ⟨first, last, hfirst, hlast, -, -⟩ := h.exists_ends hne
  have hopen : ∃ p ≤ row, openingRow index first rule w.start = some p := by
    rcases ha : w.start with - | a
    · exact ⟨0, Nat.zero_le row, rfl⟩
    · -- a window that started at the row's own time would open there
      refine h.exists_openingRow hfirst (hstart a ha) hnum ((le_iff a t).mp (ht.start a ha)).2.2 ?_
      rw [openingRow, h.locate_hit hnum hrow rfl]
  have hclose : ∃ q, row ≤ q ∧ closingRow index last rule w.stop = some q := by
    rcases hb : w.stop with - | b
    · have hlen := (List.getElem?_eq_some_iff.mp hrow).1
      exact ⟨index.length - 1, by omega, rfl⟩
    · refine h.exists_closingRow hlast hnum (hstop b hb) ((le_iff t b).mp (ht.stop b hb)).2.2 ?_
      rw [closingRow, h.locate_hit hnum hrow rfl]
  obtain ⟨p, hp, hopen⟩ := hopen
  obtain ⟨q, hq, hclose⟩ := hclose
  rw [mem_selection_iff (Window.check_of_bounds hstart hstop)]
  exact ⟨p, q, ⟨⟨first, hfirst, hopen⟩, ⟨last, hlast, hclose⟩, hp.trans hq⟩, hp, hq⟩

/-- The rows that `exclusive` spans are inside the window. -/
theorem Spans.contains (hs : Spans index w .exclusive p q) {t : α} (hrow : index[row]? = some t)
    (hpr : p ≤ row) (hrq : row ≤ q) : w.Contains t := by
  have hlen := hs.closes_in h hstop
  have hnum := h.isMissing_of_mem (List.mem_of_getElem? hrow)
  obtain ⟨⟨first, hfirst, hopen⟩, ⟨last, hlast, hclose⟩, hle⟩ := hs
  have hf := h.isMissing_of_mem (List.mem_of_head? hfirst)
  have hl := h.isMissing_of_mem (List.mem_of_getLast? hlast)
  constructor
  · intro a ha
    have hanum := hstart a ha
    rw [Option.mem_def.mp ha, h.openingRow_eq hfirst hanum] at hopen
    have hp := List.getElem?_eq_getElem (show p < index.length by omega)
    have hap := h.le_locate_backfill (isMissing_max hanum hf) hopen hp
    rw [toRat_max hanum hf] at hap
    rw [le_iff]
    exact ⟨hanum, hnum, (le_max_left _ _).trans (hap.trans (h.le_of_le hp hrow hpr))⟩
  · intro b hb
    have hbnum := hstop b hb
    rw [Option.mem_def.mp hb, h.closingRow_eq hlast hbnum] at hclose
    have hq := List.getElem?_eq_getElem hlen
    have hqb := h.locate_pad_le (isMissing_min hbnum hl) hclose hq
    rw [toRat_min hbnum hl] at hqb
    rw [le_iff]
    exact ⟨hnum, hbnum, (h.le_of_le hrow hq hrq).trans (hqb.trans (min_le_left _ _))⟩

/-- Without clipping `exclusive` selects exactly the rows inside the window. -/
theorem mem_selection_exclusive {t : α} (hrow : index[row]? = some t) :
    row ∈ w.selection index .exclusive false ↔ w.Contains t := by
  refine ⟨fun hsel => ?_, mem_selection_of_contains h hstart hstop hrow⟩
  obtain ⟨p, q, hs, hpr, hrq⟩ := (mem_selection_iff (Window.check_of_bounds hstart hstop)).mp hsel
  exact hs.contains h hstart hstop hrow hpr hrq

end Selection

/-- Between bounds that are times of the index, every rule selects exactly the rows from one to the
other. -/
theorem mem_selection_of_hits {rule : EdgeRule} {row : Nat} (h : Ordered index) {a b t : α}
    (hanum : isMissing a = false) (hbnum : isMissing b = false)
    (ha : ∃ s ∈ index, toRat s = toRat a) (hb : ∃ e ∈ index, toRat e = toRat b)
    (hrow : index[row]? = some t) :
    row ∈ (Window.mk (some a) (some b)).selection index rule false ↔
      toRat a ≤ toRat t ∧ toRat t ≤ toRat b := by
  obtain ⟨s, hs, hsa⟩ := ha
  obtain ⟨e, he, heb⟩ := hb
  have hnum := h.isMissing_of_mem (List.mem_of_getElem? hrow)
  have hstart : ∀ x ∈ some a, isMissing x = false := fun x hx => Option.some.inj hx ▸ hanum
  have hstop : ∀ x ∈ some b, isMissing x = false := fun x hx => Option.some.inj hx ▸ hbnum
  constructor
  · intro hsel
    obtain ⟨lo, hi, ⟨⟨first, -, hopen⟩, ⟨last, -, hclose⟩, -⟩, hlo, hhi⟩ :=
      (mem_selection_iff (Window.check_of_bounds hstart hstop)).mp hsel
    -- the window opens and closes at the rows of its bounds
    obtain ⟨p, hp⟩ := List.mem_iff_getElem?.mp hs
    obtain ⟨q, hq⟩ := List.mem_iff_getElem?.mp he
    rw [openingRow, h.locate_hit hanum hp hsa] at hopen
    rw [closingRow, h.locate_hit hbnum hq heb] at hclose
    obtain rfl := Option.some.inj hopen
    obtain rfl := Option.some.inj hclose
    exact ⟨hsa ▸ h.le_of_le hp hrow hlo, heb ▸ h.le_of_le hrow hq hhi⟩
  · intro hbetween
    exact mem_selection_of_contains h hstart hstop hrow
      ((Window.contains_iff hanum hbnum hnum).mpr hbetween)

/-! ## With clipping -/

section Clipped

variable {w : Window α} {rule outer : EdgeRule} {row : Nat}

/-- The bounds of a clipped window are numbers. -/
theorem Window.isMissing_clip (hstart : ∀ a ∈ w.start, isMissing a = false)
    (hstop : ∀ b ∈ w.stop, isMissing b = false) (hf : isMissing first = false)
    (hl : isMissing last = false) :
    (∀ a ∈ (w.clip first last).start, isMissing a = false) ∧
      ∀ b ∈ (w.clip first last).stop, isMissing b = false := by
  have hmax := isMissing_max (isMissing_getD hstart hf) hf
  have hmin := isMissing_min (isMissing_getD hstop hl) hl
  rw [Window.clip_eq hstart hstop hf hl]
  split
  · exact ⟨fun a ha => Option.some.inj ha ▸ hf, fun b hb => Option.some.inj hb ▸ hf⟩
  split
  · exact ⟨fun a ha => Option.some.inj ha ▸ hl, fun b hb => Option.some.inj hb ▸ hl⟩
  · exact ⟨fun a ha => Option.some.inj ha ▸ hmax, fun b hb => Option.some.inj hb ▸ hmin⟩

/-- Clipping moves the bounds, and what follows is done as without it. -/
theorem windowRange_clip (h : Ordered index) (hfirst : index.head? = some first)
    (hlast : index.getLast? = some last) (hstart : ∀ a ∈ w.start, isMissing a = false)
    (hstop : ∀ b ∈ w.stop, isMissing b = false) (rule : EdgeRule) :
    windowRange index w rule true = windowRange index (w.clip first last) rule false := by
  have hf := h.isMissing_of_mem (List.mem_of_head? hfirst)
  have hl := h.isMissing_of_mem (List.mem_of_getLast? hlast)
  obtain ⟨hstart', hstop'⟩ := Window.isMissing_clip hstart hstop hf hl
  rw [windowRange, windowRange, Window.check_of_bounds hstart hstop,
    Window.check_of_bounds hstart' hstop', hfirst, hlast]
  rfl

/-- A window selects a range of the data. -/
theorem exists_windowRange (h : Ordered index) (hstart : ∀ a ∈ w.start, isMissing a = false)
    (hstop : ∀ b ∈ w.stop, isMissing b = false) (rule : EdgeRule) (clipped : Bool) :
    ∃ p q, windowRange index w rule clipped = .ok (p, q) ∧ p ≤ q ∧ q ≤ index.length := by
  by_cases hne : index = []
  · refine ⟨0, 0, ?_, le_rfl, Nat.zero_le _⟩
    rw [windowRange, Window.check_of_bounds hstart hstop, hne]
    rfl
  obtain ⟨first, last, hfirst, hlast, hf, hl⟩ := h.exists_ends hne
  cases clipped with
  | false => exact exists_windowRange_unclipped h hstart hstop rule
  | true =>
    obtain ⟨hstart', hstop'⟩ := Window.isMissing_clip hstart hstop hf hl
    rw [windowRange_clip h hfirst hlast hstart hstop]
    exact exists_windowRange_unclipped h hstart' hstop' rule

/-- Under an outer rule a window selects all rows that it selects under a rule inside it. -/
theorem selection_subset (h : Ordered index) (hstart : ∀ a ∈ w.start, isMissing a = false)
    (hstop : ∀ b ∈ w.stop, isMissing b = false) (hrule : rule.Inside outer) (clipped : Bool) :
    w.selection index rule clipped ⊆ w.selection index outer clipped := by
  cases clipped with
  | false => exact selection_subset_unclipped h hstart hstop hrule
  | true =>
    by_cases hne : index = []
    · -- without data no rule is looked at
      subst hne
      exact subset_rfl
    obtain ⟨first, last, hfirst, hlast, hf, hl⟩ := h.exists_ends hne
    obtain ⟨hstart', hstop'⟩ := Window.isMissing_clip hstart hstop hf hl
    unfold Window.selection
    simp only [windowRange_clip h hfirst hlast hstart hstop]
    exact selection_subset_unclipped h hstart' hstop' hrule

/-- Clipping leaves bounds that are times of the index where they are. -/
theorem mem_selection_clipped_of_hits (h : Ordered index) {a b t : α} (hanum : isMissing a = false)
    (hbnum : isMissing b = false) (ha : ∃ s ∈ index, toRat s = toRat a)
    (hb : ∃ e ∈ index, toRat e = toRat b) (hab : toRat a ≤ toRat b) (hrow : index[row]? = some t) :
    row ∈ (Window.mk (some a) (some b)).selection index rule true ↔
      toRat a ≤ toRat t ∧ toRat t ≤ toRat b := by
  have hne := List.ne_nil_of_mem (List.mem_of_getElem? hrow)
  obtain ⟨first, last, hfirst, hlast, hf, hl⟩ := h.exists_ends hne
  have hw : (Window.mk (some a) (some b)).Proper := {
    start := fun x hx => Option.some.inj hx ▸ hanum
    stop := fun x hx => Option.some.inj hx ▸ hbnum
    le := fun x hx y hy => Option.some.inj hx ▸ Option.some.inj hy ▸ hab }
  obtain ⟨s, e, hclip, hs, he, hsmem, hemem⟩ :=
    hw.clip hf hl (h.le_last hlast (List.head?_eq_getElem? ▸ hfirst))
  have hsnum := of_mem_edges (isMissing · = false) hw.start hf hl hf hsmem
  have henum := of_mem_edges (isMissing · = false) hw.stop hf hl hl hemem
  -- a time of the index lies in its extent
  have hclamp : ∀ {x : α}, (∃ u ∈ index, toRat u = toRat x) →
      clamp (toRat first) (toRat last) (toRat x) = toRat x := by
    rintro x ⟨u, hu, hux⟩
    obtain ⟨i, hi⟩ := List.mem_iff_getElem?.mp hu
    exact clamp_of_mem (hux ▸ h.first_le hfirst hi) (hux ▸ h.le_last hlast hi)
  rw [Option.getD_some, hclamp ha] at hs
  rw [Option.getD_some, hclamp hb] at he
  unfold Window.selection
  rw [windowRange_clip h hfirst hlast hw.start hw.stop, hclip, ← hs, ← he]
  exact mem_selection_of_hits h hsnum henum (hs ▸ ha) (he ▸ hb) hrow

end Clipped

/-- **The edge rules are ordered.** Let the bounds of a window be numbers, in whatever order and
wherever they lie. With or without clipping, every rule selects a range of rows; `nearest`, `pre`
and `post` select all that `exclusive` selects, and `inclusive` all that they select. Without
clipping `exclusive` selects exactly the rows inside the window. When both bounds are times of the
data, in order, every rule selects exactly the rows inside the window, clipped or not. -/
theorem edgeRules_ordered {w : Window α} (h : Ordered index)
    (hstart : ∀ a ∈ w.start, isMissing a = false) (hstop : ∀ b ∈ w.stop, isMissing b = false) :
    (∀ rule clipped, ∃ p q, windowRange index w rule clipped = .ok (p, q) ∧ p ≤ q ∧
      q ≤ index.length) ∧
    (∀ rule ∈ [EdgeRule.nearest, .pre, .post], ∀ clipped,
      w.selection index .exclusive clipped ⊆ w.selection index rule clipped ∧
        w.selection index rule clipped ⊆ w.selection index .inclusive clipped) ∧
    (∀ row t, index[row]? = some t →
      (row ∈ w.selection index .exclusive false ↔ w.Contains t)) ∧
    ∀ a ∈ w.start, ∀ b ∈ w.stop, (∃ s ∈ index, eq s a = true) → (∃ e ∈ index, eq e b = true) →
      le a b = true → ∀ rule clipped row t, index[row]? = some t →
        (row ∈ w.selection index rule clipped ↔ w.Contains t) := by
  refine ⟨exists_windowRange h hstart hstop, ?_, ?_, ?_⟩
  · intro rule _ clipped
    exact ⟨selection_subset h hstart hstop (EdgeRule.exclusive_inside rule) clipped,
      selection_subset h hstart hstop (EdgeRule.inside_inclusive rule) clipped⟩
  · intro row t hrow
    exact mem_selection_exclusive h hstart hstop hrow
  · intro a ha b hb hs he hab rule clipped row t hrow
    obtain ⟨s, hs, hsa⟩ := hs
    obtain ⟨e, he, heb⟩ := he
    obtain ⟨hanum, hbnum, hab⟩ := (le_iff a b).mp hab
    have hs : ∃ s ∈ index, toRat s = toRat a := ⟨s, hs, ((LawfulScalar.eq_iff s a).mp hsa).2.2⟩
    have he : ∃ e ∈ index, toRat e = toRat b := ⟨e, he, ((LawfulScalar.eq_iff e b).mp heb).2.2⟩
    obtain ⟨start, stop⟩ := w
    obtain rfl : start = some a := ha
    obtain rfl : stop = some b := hb
    rw [Window.contains_iff hanum hbnum (h.isMissing_of_mem (List.mem_of_getElem? hrow))]
    cases clipped with
    | false => exact mem_selection_of_hits h hanum hbnum hs he hrow
    | true => exact mem_selection_clipped_of_hits h hanum hbnum hs he hab hrow

/-- A window from the second of four rows to the third one. -/
theorem edgeRules_ordered_of_four_rows :
    let index : List Float := [1, 2, 4, 8]
    let w : Window Float := ⟨some 2, some 4⟩
    Ordered index ∧ (∀ a ∈ w.start, isMissing a = false) ∧ (∀ b ∈ w.stop, isMissing b = false) ∧
      (∀ rule clipped, ∃ p q, windowRange index w rule clipped = .ok (p, q) ∧ p ≤ q ∧ q ≤ 4) ∧
      (∀ rule ∈ [EdgeRule.nearest, .pre, .post], ∀ clipped,
        w.selection index .exclusive clipped ⊆ w.selection index rule clipped ∧
          w.selection index rule clipped ⊆ w.selection index .inclusive clipped) ∧
      (∀ row t, index[row]? = some t →
        (row ∈ w.selection index .exclusive false ↔ w.Contains t)) ∧
      ∀ rule clipped row t, index[row]? = some t →
        (row ∈ w.selection index rule clipped ↔ w.Contains t) := by
  intro index w
  have h : Ordered index := checkIndex_eq_ok.mp (by decide)
  have hstart : ∀ a ∈ w.start, isMissing a = false := by decide
  have hstop : ∀ b ∈ w.stop, isMissing b = false := by decide
  obtain ⟨hrange, hsubset, hexclusive, hhits⟩ := edgeRules_ordered h hstart hstop
  refine ⟨h, hstart, hstop, hrange, hsubset, hexclusive, ?_⟩
  have htwo : 2 ∈ index := List.mem_of_getElem? (show index[1]? = some 2 from rfl)
  have hfour : 4 ∈ index := List.mem_of_getElem? (show index[2]? = some 4 from rfl)
  exact hhits 2 rfl 4 rfl ⟨2, htwo, by decide⟩ ⟨4, hfour, by decide⟩ (by decide)

end StepSignal
