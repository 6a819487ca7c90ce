import StepSignal.Proofs.Binary64.Order
import StepSignal.Proofs.Window

/-!
# Windows of windows

A window cuts a range of rows out of the data, and what is looked up in that range is found at the
same row as in all of the data, as long as that row is in the range. A window that lies inside
another one opens no earlier and closes no later, so cutting the outer one out first changes
nothing.

At its edges the range is not the data: a bound that falls between two rows of the data can be
before all rows of the range. Moving a bound to the first or the last time at hand covers both.
-/

namespace StepSignal

open Scalar

variable {α : Type} [Scalar α] [LawfulScalar α] {index : List α} {target first last : α}

/-! ## Lookup in a range of an index -/

/-- A time that misses an index misses a range of it, if the range reaches to where it belongs. -/
theorem Misses.range {n lo hi : Nat} (hm : Misses index target n) (hlo : lo ≤ n) (hhi : n ≤ hi + 1)
    (hlen : hi < index.length) : Misses ((index.take (hi + 1)).drop lo) target (n - lo) where
  le_length := by
    rw [length_range hlen]
    omega
  before i t hi hlt := hm.before (lo + i) t (getElem?_range hi).1 (by omega)
  after i t hi hle := hm.after (lo + i) t (getElem?_range hi).1 (by omega)

namespace Ordered

/-- A time is found in a range of an index as it is in the index, if it is found there in the range.
-/
theorem locate_range (h : Ordered index) (ht : isMissing target = false) {seek : Seek}
    {row lo hi : Nat} (hl : locate index target seek = some row) (hlo : lo ≤ row) (hhi : row ≤ hi)
    (hlen : hi < index.length) :
    locate ((index.take (hi + 1)).drop lo) target seek = some (row - lo) := by
  have hrange : Ordered ((index.take (hi + 1)).drop lo) := h.sublist (range_sublist _ _ _)
  rcases h.hits_or_misses ht with ⟨i, t, hi, heq⟩ | ⟨n, hm⟩
  · obtain rfl : i = row := Option.some.inj ((h.locate_hit ht hi heq seek).symm.trans hl)
    exact hrange.locate_hit ht ((getElem?_range_of_mem hlo hhi).trans hi) heq seek
  have hcases := h.locate_miss_cases ht hm hl
  have hmrange : Misses ((index.take (hi + 1)).drop lo) target (n - lo) :=
    hm.range (by omega) (by omega) hlen
  have hle := hm.le_length
  rw [h.locate_miss ht hm] at hl
  rw [hrange.locate_miss ht hmrange, length_range hlen]
  cases seek with
  | pad =>
    have hn : row + 1 = n := by simpa using hcases
    simp only [if_neg (show n - lo ≠ 0 by omega)]
    congr 1
    omega
  | backfill =>
    have hn : row = n ∧ n < index.length := by simpa using hcases
    simp only [if_pos (show n - lo < hi + 1 - lo by omega)]
    congr 1
    omega
  | nearest =>
    rcases Nat.lt_or_ge lo n with hlon | hnlo
    · simp only [if_neg (show n ≠ 0 by omega)] at hl
      simp only [if_neg (show n - lo ≠ 0 by omega)]
      rcases Nat.lt_or_ge hi n with hnhi | hnhi
      · -- the range ends before the time, so that only its last row is left
        simp only [if_neg (show ¬ n - lo < hi + 1 - lo by omega), Option.or_none]
        congr 1
        omega
      · -- the rows on both sides of the time are in the range
        simp only [if_pos (show n < index.length by omega)] at hl
        simp only [if_pos (show n - lo < hi + 1 - lo by omega)]
        have hb : ((index.take (hi + 1)).drop lo)[n - lo - 1]? = index[n - 1]? := by
          rw [← getElem?_range_of_mem (show lo ≤ n - 1 by omega) (show n - 1 ≤ hi by omega)]
          congr 1
          omega
        have ha : ((index.take (hi + 1)).drop lo)[n - lo]? = index[n]? :=
          getElem?_range_of_mem hlon.le hnhi
        unfold closer at hl ⊢
        rw [hb, ha]
        split at hl
        · split at hl <;> obtain rfl := Option.some.inj hl
          · rw [if_pos ‹_›]
            congr 1
            omega
          · rw [if_neg ‹_›]
        · cases hl
    · -- the range starts after the time
      obtain rfl : row = lo := by omega
      simp only [show n - row = 0 by omega, if_true, if_pos (show 0 < hi + 1 - row by omega),
        Option.none_or, Nat.sub_self]

/-- A time is not found when all rows are on the side of it that is not looked at. -/
theorem locate_eq_none_iff (h : Ordered index) (ht : isMissing target = false) (hne : index ≠ [])
    {seek : Seek} : locate index target seek = none ↔
      (seek = .pad ∧ ∀ t ∈ index, toRat target < toRat t) ∨
        (seek = .backfill ∧ ∀ t ∈ index, toRat t < toRat target) := by
  have hpos := List.length_pos_of_ne_nil hne
  rcases h.hits_or_misses ht with ⟨i, t, hi, heq⟩ | ⟨n, hm⟩
  · rw [h.locate_hit ht hi heq]
    have hmem := List.mem_of_getElem? hi
    refine iff_of_false (nomatch ·) ?_
    rintro (⟨-, hall⟩ | ⟨-, hall⟩)
    · exact (hall t hmem).ne' heq
    · exact (hall t hmem).ne heq
  have hle := hm.le_length
  have hlater : (∀ t ∈ index, toRat target < toRat t) ↔ n = 0 := by
    constructor
    · intro hall
      by_contra hn
      have hfirst := List.getElem?_eq_getElem hpos
      exact (hall _ (List.mem_of_getElem? hfirst)).not_gt (hm.before 0 _ hfirst (by omega))
    · rintro rfl t ht
      obtain ⟨i, hi⟩ := List.mem_iff_getElem?.mp ht
      exact hm.after i t hi (Nat.zero_le i)
  have hearlier : (∀ t ∈ index, toRat t < toRat target) ↔ n = index.length := by
    constructor
    · intro hall
      by_contra hn
      have hrow := List.getElem?_eq_getElem (show n < index.length by omega)
      exact (hall _ (List.mem_of_getElem? hrow)).not_gt (hm.after n _ hrow le_rfl)
    · rintro rfl t ht
      obtain ⟨i, hi⟩ := List.mem_iff_getElem?.mp ht
      exact hm.before i t hi (List.getElem?_eq_some_iff.mp hi).1
  rw [h.locate_miss ht hm, hlater, hearlier]
  cases seek with
  | pad => simp
  | backfill =>
    simp
    omega
  | nearest =>
    by_cases hn : n = 0
    · simp [hn, hpos]
    · rcases hle.lt_or_eq with hlt | rfl
      · have hb := List.getElem?_eq_getElem (show n - 1 < index.length by omega)
        have ha := List.getElem?_eq_getElem hlt
        simp only [if_neg hn, if_pos hlt, closer, hb, ha]
        split <;> simp
      · simp [hn]

end Ordered

/-! ## Opening and closing -/

section Edges

variable {a b : α} {rule : EdgeRule} {p q lo hi : Nat}

/-- A start and a stop are looked up alike, or both outwards; only `exclusive` looks inwards. -/
theorem EdgeRule.seeks_cases (rule : EdgeRule) :
    rule.startSeek = rule.stopSeek ∨ (rule.startSeek = .pad ∧ rule.stopSeek = .backfill) ∨
      rule = .exclusive := by
  cases rule <;> simp [EdgeRule.startSeek, EdgeRule.stopSeek]

namespace Ordered

/-- A window opens where its start is found once it is moved up to the first time. -/
theorem openingRow_eq (h : Ordered index) (hfirst : index.head? = some first)
    (ha : isMissing a = false) : openingRow index first rule (some a)
      = locate index (Scalar.max a first) rule.startSeek := by
  have hf := h.isMissing_of_mem (List.mem_of_head? hfirst)
  have hzero := List.head?_eq_getElem? ▸ hfirst
  have hne := List.ne_nil_of_mem (List.mem_of_head? hfirst)
  rw [openingRow]
  rcases max_cases ha hf with ⟨heq, hlt⟩ | ⟨heq, hle⟩
  · rw [heq]
    rcases hl : locate index a rule.startSeek with - | row
    · have hnot : lt a first = false := by simpa [lt_eq ha hf] using hlt.le
      simp [hnot]
    · rfl
  · rw [heq, h.locate_hit hf hzero rfl]
    rcases hl : locate index a rule.startSeek with - | row
    · rcases (h.locate_eq_none_iff ha hne).mp hl with ⟨-, hall⟩ | ⟨-, hall⟩
      · have hlt := hall first (List.mem_of_head? hfirst)
        simp [lt_eq ha hf, hlt]
      · exact absurd (hall first (List.mem_of_head? hfirst)) hle.not_gt
    · have hstands := h.stands_of_locate ha hl
      obtain rfl : row = 0 := by
        by_contra hrow
        exact (hstands.before 0 first hzero (by omega)).not_ge hle
      rfl

/-- A window closes where its stop is found once it is moved back to the last time. -/
theorem closingRow_eq (h : Ordered index) (hlast : index.getLast? = some last)
    (hb : isMissing b = false) : closingRow index last rule (some b)
      = locate index (Scalar.min b last) rule.stopSeek := by
  have hl := h.isMissing_of_mem (List.mem_of_getLast? hlast)
  have hend := List.getLast?_eq_getElem? ▸ hlast
  have hne := List.ne_nil_of_mem (List.mem_of_getLast? hlast)
  rw [closingRow]
  rcases min_cases hb hl with ⟨heq, hlt⟩ | ⟨heq, hle⟩
  · rw [heq]
    rcases hlocate : locate index b rule.stopSeek with - | row
    · have hnot : lt last b = false := by simpa [lt_eq hl hb] using hlt.le
      simp [hnot]
    · rfl
  · rw [heq, h.locate_hit hl hend rfl]
    rcases hlocate : locate index b rule.stopSeek with - | row
    · rcases (h.locate_eq_none_iff hb hne).mp hlocate with ⟨-, hall⟩ | ⟨-, hall⟩
      · exact absurd (hall last (List.mem_of_getLast? hlast)) hle.not_gt
      · have hlt := hall last (List.mem_of_getLast? hlast)
        simp [lt_eq hl hb, hlt]
    · have hstands := h.stands_of_locate hb hlocate
      have hlen := hstands.lt_length
      obtain rfl : row = index.length - 1 := by
        by_contra hrow
        exact (hstands.after _ last hend (by omega)).not_ge hle
      rfl

/-- A window that starts no later than another one opens no later. -/
theorem exists_openingRow (h : Ordered index) (hfirst : index.head? = some first)
    (ha : isMissing a = false) (hb : isMissing b = false) (hab : toRat a ≤ toRat b)
    (hp : openingRow index first rule (some b) = some p) :
    ∃ lo ≤ p, openingRow index first rule (some a) = some lo := by
  have hf := h.isMissing_of_mem (List.mem_of_head? hfirst)
  have hne := List.ne_nil_of_mem (List.mem_of_head? hfirst)
  have hle : toRat (Scalar.max a first) ≤ toRat (Scalar.max b first) := by
    rw [toRat_max ha hf, toRat_max hb hf]
    exact max_le_max_right _ hab
  have ha' := isMissing_max ha hf
  have hb' := isMissing_max hb hf
  rw [h.openingRow_eq hfirst hb] at hp
  rw [h.openingRow_eq hfirst ha]
  rcases hl : locate index (Scalar.max a first) rule.startSeek with - | lo
  · rcases (h.locate_eq_none_iff ha' hne).mp hl with ⟨-, hall⟩ | ⟨hseek, hall⟩
    · have hlt := hall first (List.mem_of_head? hfirst)
      rw [toRat_max ha hf] at hlt
      exact absurd hlt (le_max_right _ _).not_gt
    · -- no row is at or after the earlier start, so none is after the later one
      have hnone := (h.locate_eq_none_iff hb' hne).mpr
        (.inr ⟨hseek, fun t ht => (hall t ht).trans_le hle⟩)
      rw [hnone] at hp
      cases hp
  · exact ⟨lo, h.locate_mono ha' hb' hle hl hp, rfl⟩

/-- A window that stops no earlier than another one closes no earlier. -/
theorem exists_closingRow (h : Ordered index) (hlast : index.getLast? = some last)
    (ha : isMissing a = false) (hb : isMissing b = false) (hab : toRat a ≤ toRat b)
    (hq : closingRow index last rule (some a) = some q) :
    ∃ hi, q ≤ hi ∧ closingRow index last rule (some b) = some hi := by
  have hl := h.isMissing_of_mem (List.mem_of_getLast? hlast)
  have hne := List.ne_nil_of_mem (List.mem_of_getLast? hlast)
  have hle : toRat (Scalar.min a last) ≤ toRat (Scalar.min b last) := by
    rw [toRat_min ha hl, toRat_min hb hl]
    exact min_le_min_right _ hab
  have ha' := isMissing_min ha hl
  have hb' := isMissing_min hb hl
  rw [h.closingRow_eq hlast ha] at hq
  rw [h.closingRow_eq hlast hb]
  rcases hlocate : locate index (Scalar.min b last) rule.stopSeek with - | hi
  · rcases (h.locate_eq_none_iff hb' hne).mp hlocate with ⟨hseek, hall⟩ | ⟨-, hall⟩
    · -- no row is at or before the later stop, so none is before the earlier one
      have hnone := (h.locate_eq_none_iff ha' hne).mpr
        (.inl ⟨hseek, fun t ht => hle.trans_lt (hall t ht)⟩)
      rw [hnone] at hq
      cases hq
    · have hlt := hall last (List.mem_of_getLast? hlast)
      rw [toRat_min hb hl] at hlt
      exact absurd hlt (min_le_right _ _).not_gt
  · exact ⟨hi, h.locate_mono ha' hb' hle hq hlocate, rfl⟩

/-- A range of the data opens where the data does, if that is in the range. -/
theorem openingRow_range (h : Ordered index) (hfirst : index.head? = some first)
    (ha : isMissing a = false) (hp : openingRow index first rule (some a) = some p) (hlo : lo ≤ p)
    (hhi : p ≤ hi) (hlen : hi < index.length) {s : α} (hs : index[lo]? = some s) :
    openingRow ((index.take (hi + 1)).drop lo) s rule (some a) = some (p - lo) := by
  have hf := h.isMissing_of_mem (List.mem_of_head? hfirst)
  have hsnum := h.isMissing_of_mem (List.mem_of_getElem? hs)
  have hrange : Ordered ((index.take (hi + 1)).drop lo) := h.sublist (range_sublist _ _ _)
  have hhead : ((index.take (hi + 1)).drop lo)[0]? = some s := by
    rw [← hs, ← getElem?_range_of_mem le_rfl (hlo.trans hhi), Nat.sub_self]
  have hfs := h.first_le hfirst hs
  rw [h.openingRow_eq hfirst ha] at hp
  rw [hrange.openingRow_eq (List.head?_eq_getElem? ▸ hhead) ha]
  rcases max_cases ha hsnum with ⟨heq, hlt⟩ | ⟨heq, hle⟩
  · -- the start is in the range, and so it is in the data
    rcases max_cases ha hf with ⟨heq', -⟩ | ⟨-, hle⟩
    · rw [heq'] at hp
      rw [heq]
      exact h.locate_range ha hp hlo hhi hlen
    · exact absurd (hlt.trans_le hle) hfs.not_gt
  · -- the start is not after the first row of the range, which is therefore the one found
    have hmax : toRat (Scalar.max a first) ≤ toRat s := by
      rw [toRat_max ha hf]
      exact max_le hle hfs
    have hpl := h.locate_mono (isMissing_max ha hf) hsnum hmax hp (h.locate_hit hsnum hs rfl _)
    rw [heq, hrange.locate_hit hsnum hhead rfl, Nat.sub_eq_zero_of_le hpl]

/-- A range of the data closes where the data does, if that is in the range. -/
theorem closingRow_range (h : Ordered index) (hlast : index.getLast? = some last)
    (hb : isMissing b = false) (hq : closingRow index last rule (some b) = some q) (hlo : lo ≤ q)
    (hhi : q ≤ hi) {e : α} (he : index[hi]? = some e) :
    closingRow ((index.take (hi + 1)).drop lo) e rule (some b) = some (q - lo) := by
  have hl := h.isMissing_of_mem (List.mem_of_getLast? hlast)
  have henum := h.isMissing_of_mem (List.mem_of_getElem? he)
  have hlen := (List.getElem?_eq_some_iff.mp he).1
  have hrange : Ordered ((index.take (hi + 1)).drop lo) := h.sublist (range_sublist _ _ _)
  have hend : ((index.take (hi + 1)).drop lo)[hi - lo]? = some e := by
    rw [← he, ← getElem?_range_of_mem (hlo.trans hhi) le_rfl]
  have hgetLast : ((index.take (hi + 1)).drop lo).getLast? = some e := by
    rw [List.getLast?_eq_getElem?, length_range hlen, ← hend]
    congr 1
    omega
  have hel := h.le_last hlast he
  rw [h.closingRow_eq hlast hb] at hq
  rw [hrange.closingRow_eq hgetLast hb]
  rcases min_cases hb henum with ⟨heq, hlt⟩ | ⟨heq, hle⟩
  · -- the stop is in the range, and so it is in the data
    rcases min_cases hb hl with ⟨heq', -⟩ | ⟨-, hle⟩
    · rw [heq'] at hq
      rw [heq]
      exact h.locate_range hb hq hlo hhi hlen
    · exact absurd (hle.trans_lt hlt) hel.not_gt
  · -- the stop is not before the last row of the range, which is therefore the one found
    have hmin : toRat e ≤ toRat (Scalar.min b last) := by
      rw [toRat_min hb hl]
      exact le_min hle hel
    have hhq := h.locate_mono henum (isMissing_min hb hl) hmin (h.locate_hit henum he rfl _) hq
    obtain rfl : q = hi := by omega
    rw [heq, hrange.locate_hit henum hend rfl]

/-- Where the data does not open, no range of it does. -/
theorem openingRow_range_eq_none (h : Ordered index) (hfirst : index.head? = some first)
    (ha : isMissing a = false) (hp : openingRow index first rule (some a) = none) {s : α}
    (hs : ((index.take (hi + 1)).drop lo).head? = some s) :
    openingRow ((index.take (hi + 1)).drop lo) s rule (some a) = none := by
  have hrange : Ordered ((index.take (hi + 1)).drop lo) := h.sublist (range_sublist _ _ _)
  have hmem := List.mem_of_head? hs
  have hf := h.isMissing_of_mem (List.mem_of_head? hfirst)
  have hsnum := hrange.isMissing_of_mem hmem
  have hfs : toRat first ≤ toRat s := by
    obtain ⟨i, hi⟩ := List.mem_iff_getElem?.mp ((range_sublist _ _ _).mem hmem)
    exact h.first_le hfirst hi
  rw [h.openingRow_eq hfirst ha, h.locate_eq_none_iff (isMissing_max ha hf)
    (List.ne_nil_of_mem (List.mem_of_head? hfirst)), toRat_max ha hf] at hp
  rw [hrange.openingRow_eq hs ha, hrange.locate_eq_none_iff (isMissing_max ha hsnum)
    (List.ne_nil_of_mem hmem), toRat_max ha hsnum]
  rcases hp with ⟨-, hall⟩ | ⟨hseek, hall⟩
  · exact absurd (hall first (List.mem_of_head? hfirst)) (le_max_right _ _).not_gt
  · refine .inr ⟨hseek, fun t ht => ?_⟩
    exact (hall t ((range_sublist _ _ _).mem ht)).trans_le (max_le_max_left _ hfs)

/-- Where the data does not close, no range of it does. -/
theorem closingRow_range_eq_none (h : Ordered index) (hlast : index.getLast? = some last)
    (hb : isMissing b = false) (hq : closingRow index last rule (some b) = none) {e : α}
    (he : ((index.take (hi + 1)).drop lo).getLast? = some e) :
    closingRow ((index.take (hi + 1)).drop lo) e rule (some b) = none := by
  have hrange : Ordered ((index.take (hi + 1)).drop lo) := h.sublist (range_sublist _ _ _)
  have hmem := List.mem_of_getLast? he
  have hl := h.isMissing_of_mem (List.mem_of_getLast? hlast)
  have henum := hrange.isMissing_of_mem hmem
  have hel : toRat e ≤ toRat last := by
    obtain ⟨i, hi⟩ := List.mem_iff_getElem?.mp ((range_sublist _ _ _).mem hmem)
    exact h.le_last hlast hi
  rw [h.closingRow_eq hlast hb, h.locate_eq_none_iff (isMissing_min hb hl)
    (List.ne_nil_of_mem (List.mem_of_getLast? hlast)), toRat_min hb hl] at hq
  rw [hrange.closingRow_eq he hb, hrange.locate_eq_none_iff (isMissing_min hb henum)
    (List.ne_nil_of_mem hmem), toRat_min hb henum]
  rcases hq with ⟨hseek, hall⟩ | ⟨-, hall⟩
  · refine .inl ⟨hseek, fun t ht => ?_⟩
    exact (min_le_min_left _ hel).trans_lt (hall t ((range_sublist _ _ _).mem ht))
  · exact absurd (hall last (List.mem_of_getLast? hlast)) (min_le_right _ _).not_gt

/-- A window closes before it opens only if its rule keeps to the rows inside it and there are none.
-/
theorem eq_exclusive_of_lt (h : Ordered index) (hfirst : index.head? = some first)
    (hlast : index.getLast? = some last) (hab : Scalar.le a b = true)
    (hp : openingRow index first rule (some a) = some p)
    (hq : closingRow index last rule (some b) = some q) (hqp : q < p) :
    rule = .exclusive ∧ ∀ t ∈ index, toRat a ≤ toRat t → toRat b < toRat t := by
  obtain ⟨ha, hb, hab⟩ := (le_iff a b).mp hab
  have hf := h.isMissing_of_mem (List.mem_of_head? hfirst)
  have hl := h.isMissing_of_mem (List.mem_of_getLast? hlast)
  rw [h.openingRow_eq hfirst ha] at hp
  rw [h.closingRow_eq hlast hb] at hq
  have hsnum := isMissing_max ha hf
  have henum := isMissing_min hb hl
  have hs := h.stands_of_locate hsnum hp
  have he := h.stands_of_locate henum hq
  -- a row before the opening and one after the closing leave both bounds where they are
  have hsa : toRat (Scalar.max a first) = toRat a := by
    have hlt := hs.before 0 first (List.head?_eq_getElem? ▸ hfirst) (by omega)
    rw [toRat_max ha hf] at hlt ⊢
    exact max_eq_left ((lt_max_iff.mp hlt).resolve_right (lt_irrefl _)).le
  have heb : toRat (Scalar.min b last) = toRat b := by
    have hlen := hs.lt_length
    have hlt := he.after _ last (List.getLast?_eq_getElem? ▸ hlast) (by omega)
    rw [toRat_min hb hl] at hlt ⊢
    exact min_eq_left ((min_lt_iff.mp hlt).resolve_right (lt_irrefl _)).le
  obtain ⟨-, hms, hme⟩ := hs.misses he (hsa ▸ heb ▸ hab) hqp
  constructor
  · rcases rule.seeks_cases with heq | ⟨hpad, -⟩ | hrule
    · rw [heq] at hp
      have hle := h.locate_mono hsnum henum (hsa ▸ heb ▸ hab) hp hq
      omega
    · rw [hpad] at hp
      have hrow := List.getElem?_eq_getElem hs.lt_length
      exact absurd (h.locate_pad_le hsnum hp hrow) (hms.after p _ hrow le_rfl).not_ge
    · exact hrule
  · intro t ht hle
    obtain ⟨i, hi⟩ := List.mem_iff_getElem?.mp ht
    rcases Nat.lt_or_ge i p with hlt | hge
    · exact absurd hle (hsa ▸ hms.before i t hi hlt).not_ge
    · exact heb ▸ hme.after i t hi hge

end Ordered
end Edges

/-! ## The rows that a window spans -/

/-- A window reaches from the row that it opens at to the row that it closes at. -/
structure Spans (index : List α) (w : Window α) (rule : EdgeRule) (p q : Nat) : Prop where
  opens : ∃ first ∈ index.head?, openingRow index first rule w.start = some p
  closes : ∃ last ∈ index.getLast?, closingRow index last rule w.stop = some q
  le : p ≤ q

section Selected

omit [LawfulScalar α]

variable {β : Type} {rows : List (Stamped α β)} {w : Window α} {rule : EdgeRule} {p q : Nat}

theorem Spans.windowRange (hs : Spans index w rule p q) (hw : w.check = .ok ()) :
    windowRange index w rule false = .ok (p, q + 1) := by
  obtain ⟨⟨first, hfirst, hopen⟩, ⟨last, hlast, hclose⟩, hle⟩ := hs
  rw [Option.mem_def] at hfirst hlast
  rw [StepSignal.windowRange]
  simp [hw, hfirst, hlast, hopen, hclose, hle]

theorem windowRange_of_not_spans (hs : ∀ p q, ¬ Spans index w rule p q) (hw : w.check = .ok ()) :
    windowRange index w rule false = .ok (0, 0) := by
  rw [windowRange]
  rcases hfirst : index.head? with - | first
  · simp [hw]
  rcases hlast : index.getLast? with - | last
  · simp [hw]
  rcases hopen : openingRow index first rule w.start with - | p
  · simp [hw, hopen]
  rcases hclose : closingRow index last rule w.stop with - | q
  · simp [hw, hopen, hclose]
  have hlt : ¬ p ≤ q := fun hle => hs p q ⟨⟨first, hfirst, hopen⟩, ⟨last, hlast, hclose⟩, hle⟩
  simp [hw, hopen, hclose, hlt]

theorem Spans.windowRows (hs : Spans (Stamped.times rows) w rule p q) (hw : w.check = .ok ()) :
    windowRows rows w rule false = .ok (Stamped.extract rows p (q + 1)) := by
  rw [StepSignal.windowRows, hs.windowRange hw]
  rfl

theorem windowRows_of_not_spans (hs : ∀ p q, ¬ Spans (Stamped.times rows) w rule p q)
    (hw : w.check = .ok ()) : windowRows rows w rule false = .ok [] := by
  rw [windowRows, windowRange_of_not_spans hs hw]
  rfl

end Selected

namespace Spans

variable {a b c d : α} {rule : EdgeRule} {p q lo hi : Nat}

theorem lt_length (h : Ordered index) (hb : isMissing b = false)
    (hs : Spans index ⟨some a, some b⟩ rule p q) : q < index.length := by
  obtain ⟨last, hlast, hclose⟩ := hs.closes
  have hl := h.isMissing_of_mem (List.mem_of_getLast? hlast)
  rw [h.closingRow_eq hlast hb] at hclose
  exact (h.stands_of_locate (isMissing_min hb hl) hclose).lt_length

/-- A window around one that reaches some rows reaches these rows too. -/
theorem outer (h : Ordered index) (hab : Scalar.le a b = true) (hcd : Scalar.le c d = true)
    (hs : Spans index ⟨some b, some c⟩ rule p q) :
    ∃ lo hi, Spans index ⟨some a, some d⟩ rule lo hi ∧ lo ≤ p ∧ q ≤ hi := by
  obtain ⟨⟨first, hfirst, hopen⟩, ⟨last, hlast, hclose⟩, hle⟩ := hs
  obtain ⟨ha, hb, hab⟩ := (le_iff a b).mp hab
  obtain ⟨hc, hd, hcd⟩ := (le_iff c d).mp hcd
  obtain ⟨lo, hlo, hopen⟩ := h.exists_openingRow hfirst ha hb hab hopen
  obtain ⟨hi, hhi, hclose⟩ := h.exists_closingRow hlast hc hd hcd hclose
  exact ⟨lo, hi, ⟨⟨first, hfirst, hopen⟩, ⟨last, hlast, hclose⟩, by omega⟩, hlo, hhi⟩

/-- A window that reaches some rows reaches them in a range that has them all. -/
theorem range (h : Ordered index) (hb : isMissing b = false) (hc : isMissing c = false)
    (hs : Spans index ⟨some b, some c⟩ rule p q) (hlo : lo ≤ p) (hhi : q ≤ hi)
    (hlen : hi < index.length) :
    Spans ((index.take (hi + 1)).drop lo) ⟨some b, some c⟩ rule (p - lo) (q - lo) := by
  obtain ⟨⟨first, hfirst, hopen⟩, ⟨last, hlast, hclose⟩, hle⟩ := hs
  have hs := List.getElem?_eq_getElem (show lo < index.length by omega)
  have he := List.getElem?_eq_getElem hlen
  generalize index[lo] = s at hs
  generalize index[hi] = e at he
  refine ⟨⟨s, ?_, ?_⟩, ⟨e, ?_, ?_⟩, by omega⟩
  · rw [Option.mem_def, List.head?_eq_getElem?, ← Nat.sub_self lo, getElem?_range_of_mem le_rfl
      (by omega), hs]
  · exact h.openingRow_range hfirst hb hopen hlo (by omega) hlen hs
  · rw [Option.mem_def, List.getLast?_eq_getElem?, length_range hlen,
      show hi + 1 - lo - 1 = hi - lo by omega, getElem?_range_of_mem (by omega) le_rfl, he]
  · exact h.closingRow_range hlast hc hclose (by omega) hhi he

/-- A window that keeps to the rows inside it and reaches one has a row inside. -/
theorem exists_inside (h : Ordered index) (hb : isMissing b = false) (hc : isMissing c = false)
    (hs : Spans index ⟨some b, some c⟩ .exclusive p q) :
    ∃ t ∈ index, toRat b ≤ toRat t ∧ toRat t ≤ toRat c := by
  have hlen := hs.lt_length h hc
  obtain ⟨⟨first, hfirst, hopen⟩, ⟨last, hlast, hclose⟩, hle⟩ := hs
  have hf := h.isMissing_of_mem (List.mem_of_head? hfirst)
  have hl := h.isMissing_of_mem (List.mem_of_getLast? hlast)
  rw [h.openingRow_eq hfirst hb] at hopen
  rw [h.closingRow_eq hlast hc] at hclose
  have hp := List.getElem?_eq_getElem (show p < index.length by omega)
  have hq := List.getElem?_eq_getElem hlen
  have hbp := h.le_locate_backfill (isMissing_max hb hf) hopen hp
  have hqc := h.locate_pad_le (isMissing_min hc hl) hclose hq
  rw [toRat_max hb hf] at hbp
  rw [toRat_min hc hl] at hqc
  refine ⟨_, List.mem_of_getElem? hp, (le_max_left _ _).trans hbp, ?_⟩
  exact (h.le_of_le hp hq hle).trans (hqc.trans (min_le_left _ _))

/-- A window that reaches a row of a range reaches one of all the data. -/
theorem of_range (h : Ordered index) (hbc : Scalar.le b c = true)
    (hs : Spans ((index.take (hi + 1)).drop lo) ⟨some b, some c⟩ rule p q) :
    ∃ p q, Spans index ⟨some b, some c⟩ rule p q := by
  have hrange : Ordered ((index.take (hi + 1)).drop lo) := h.sublist (range_sublist _ _ _)
  obtain ⟨hb, hc, -⟩ := (le_iff b c).mp hbc
  obtain ⟨s, hhead, hopen⟩ := hs.opens
  obtain ⟨e, hend, hclose⟩ := hs.closes
  have hne : index ≠ [] := by
    rintro rfl
    simp at hhead
  have hfirst := List.head?_eq_some_head hne
  have hlast := List.getLast?_eq_some_getLast hne
  rcases hp : openingRow index (index.head hne) rule (some b) with - | p'
  · cases (h.openingRow_range_eq_none hfirst hb hp hhead).symm.trans hopen
  rcases hq : closingRow index (index.getLast hne) rule (some c) with - | q'
  · cases (h.closingRow_range_eq_none hlast hc hq hend).symm.trans hclose
  refine ⟨p', q', ⟨_, hfirst, hp⟩, ⟨_, hlast, hq⟩, not_lt.mp fun hlt => ?_⟩
  -- otherwise no row is inside the window, but one of the range is
  obtain ⟨rfl, hnone⟩ := h.eq_exclusive_of_lt hfirst hlast hbc hp hq hlt
  obtain ⟨t, ht, hbt, htc⟩ := hs.exists_inside hrange hb hc
  exact (hnone t ((range_sublist _ _ _).mem ht) hbt).not_ge htc

end Spans

/-- Cutting a window out of the data first changes nothing for a window inside it. -/
theorem windowRows_nested {β : Type} {rows : List (Stamped α β)} {a b c d : α}
    (h : Ordered (Stamped.times rows)) (rule : EdgeRule) (hab : Scalar.le a b = true)
    (hbc : Scalar.le b c = true) (hcd : Scalar.le c d = true) :
    ∃ outer inner, windowRows rows ⟨some a, some d⟩ rule false = .ok outer ∧
      windowRows outer ⟨some b, some c⟩ rule false = .ok inner ∧
      windowRows rows ⟨some b, some c⟩ rule false = .ok inner := by
  obtain ⟨ha, hb, -⟩ := (le_iff a b).mp hab
  obtain ⟨hc, hd, -⟩ := (le_iff c d).mp hcd
  have houter : (Window.mk (some a) (some d)).check = .ok () := by simp [Window.check, ha, hd]
  have hinner : (Window.mk (some b) (some c)).check = .ok () := by simp [Window.check, hb, hc]
  by_cases hs : ∃ p q, Spans (Stamped.times rows) ⟨some b, some c⟩ rule p q
  · obtain ⟨p, q, hs⟩ := hs
    obtain ⟨lo, hi, hspans, hlo, hhi⟩ := hs.outer h hab hcd
    have hrange := hs.range h hb hc hlo hhi (hspans.lt_length h hd)
    rw [← Stamped.times_extract] at hrange
    refine ⟨_, _, hspans.windowRows houter, hrange.windowRows hinner, ?_⟩
    rw [Stamped.extract_extract hlo hs.le hhi]
    exact hs.windowRows hinner
  · have hnone : ∀ p q, ¬ Spans (Stamped.times rows) ⟨some b, some c⟩ rule p q := fun p q hpq =>
      hs ⟨p, q, hpq⟩
    have hdirect := windowRows_of_not_spans hnone hinner
    by_cases hout : ∃ lo hi, Spans (Stamped.times rows) ⟨some a, some d⟩ rule lo hi
    · obtain ⟨lo, hi, hspans⟩ := hout
      refine ⟨_, _, hspans.windowRows houter, windowRows_of_not_spans (fun p q hpq => ?_) hinner,
        hdirect⟩
      rw [Stamped.times_extract] at hpq
      exact hs (hpq.of_range h hbc)
    · refine ⟨_, _, windowRows_of_not_spans (fun p q hpq => hout ⟨p, q, hpq⟩) houter,
        windowRows_of_not_spans (fun p q hpq => ?_) hinner, hdirect⟩
      obtain ⟨first, hfirst, -⟩ := hpq.opens
      cases hfirst

/-! ## Unset bounds -/

namespace Window

variable {w outer : Window Float}

/-- The start of a window of doubles, minus infinity if it is unset. -/
def lower (w : Window Float) : Float := w.start.getD (-1 / 0)

/-- The stop of a window of doubles, infinity if it is unset. -/
def upper (w : Window Float) : Float := w.stop.getD (1 / 0)

/-- A window starts no later than it stops, and lies inside another one. No bound is NaN, as NaN is
not at or below anything. -/
structure Within (w outer : Window Float) : Prop where
  start : outer.lower ≤ w.lower
  le : w.lower ≤ w.upper
  stop : w.upper ≤ outer.upper

end Window

section Unset

variable {index : List Float} {first last : Float} (h : Ordered index) (rule : EdgeRule)

include h

/-- An unset start opens as minus infinity does. -/
theorem Ordered.openingRow_lower (hfirst : index.head? = some first) (w : Window Float) :
    openingRow index first rule w.start = openingRow index first rule (some w.lower) := by
  rcases hstart : w.start with - | a
  · have hlower : w.lower = -1 / 0 := by rw [Window.lower, hstart, Option.getD_none]
    have hf := h.1 first (List.mem_of_head? hfirst)
    have hlt : lt (-1 / 0) first = true := decide_eq_true (Binary64.neg_infinity_lt hf)
    have hmax : Scalar.max (-1 / 0) first = first := by
      obtain ⟨hl, hf, hlt⟩ := (LawfulScalar.lt_iff _ _).mp hlt
      rcases max_cases hl hf with ⟨-, hgt⟩ | ⟨heq, -⟩
      · exact absurd hlt hgt.not_gt
      · exact heq
    rw [hlower, h.openingRow_eq hfirst rfl, hmax,
      h.locate_hit (h.isMissing_of_mem (List.mem_of_head? hfirst))
        (List.head?_eq_getElem? ▸ hfirst) rfl]
    rfl
  · rw [Window.lower, hstart, Option.getD_some]

/-- An unset stop closes as infinity does. -/
theorem Ordered.closingRow_upper (hlast : index.getLast? = some last) (w : Window Float) :
    closingRow index last rule w.stop = closingRow index last rule (some w.upper) := by
  rcases hstop : w.stop with - | b
  · have hupper : w.upper = 1 / 0 := by rw [Window.upper, hstop, Option.getD_none]
    have hl := h.1 last (List.mem_of_getLast? hlast)
    have hlt : lt last (1 / 0) = true := decide_eq_true (Binary64.lt_infinity hl)
    have hmin : Scalar.min (1 / 0) last = last := by
      obtain ⟨hl, hu, hlt⟩ := (LawfulScalar.lt_iff _ _).mp hlt
      rcases min_cases hu hl with ⟨-, hgt⟩ | ⟨heq, -⟩
      · exact absurd hlt hgt.not_gt
      · exact heq
    rw [hupper, h.closingRow_eq hlast rfl, hmin,
      h.locate_hit (h.isMissing_of_mem (List.mem_of_getLast? hlast))
        (List.getLast?_eq_getElem? ▸ hlast) rfl]
    rfl
  · rw [Window.upper, hstop, Option.getD_some]

end Unset

/-- A window selects what it selects with infinities for unset bounds. -/
theorem windowRows_bounds {β : Type} {rows : List (Stamped Float β)}
    (h : Ordered (Stamped.times rows)) (w : Window Float) (rule : EdgeRule) :
    windowRows rows w rule false = windowRows rows ⟨some w.lower, some w.upper⟩ rule false := by
  have hcheck : (Window.mk (some w.lower) (some w.upper)).check = w.check := by
    have hany : ∀ (bound : Option Float) (d : Float), isMissing d = false →
        (some (bound.getD d)).any isMissing = bound.any isMissing := by
      intro bound d hd
      cases bound with
      | none => exact hd
      | some b => rfl
    rw [Window.check, Window.check, Window.lower, Window.upper, hany _ _ rfl, hany _ _ rfl]
  unfold windowRows windowRange
  rw [hcheck]
  rcases hfirst : (Stamped.times rows).head? with - | first
  · rfl
  rcases hlast : (Stamped.times rows).getLast? with - | last
  · rfl
  simp only [Bool.false_eq_true, if_false]
  rw [h.openingRow_lower rule hfirst w, h.closingRow_upper rule hlast w]

/-- **Nested windows compose.** Under any rule, an unclipped window of an unclipped window is what
the inner of the two selects by itself, in a table and in a series. -/
theorem window_nested (rule : EdgeRule) {w outer : Window Float} (hw : w.Within outer) :
    (∀ t : Table Float, t.Valid → ∃ cut out, t.window outer rule false = .ok cut ∧
      cut.window w rule false = .ok out ∧ t.window w rule false = .ok out) ∧
    (∀ s : Series Float, s.Valid → ∃ cut out, s.window outer rule false = .ok cut ∧
      cut.window w rule false = .ok out ∧ s.window w rule false = .ok out) := by
  have hrows : ∀ {β : Type} {rows : List (Stamped Float β)}, Ordered (Stamped.times rows) →
      ∃ cut out, windowRows rows outer rule false = .ok cut ∧
        windowRows cut w rule false = .ok out ∧ windowRows rows w rule false = .ok out := by
    intro β rows h
    obtain ⟨cut, out, hcut, hout, hdirect⟩ :=
      windowRows_nested h rule (Binary64.le_iff_scalar.mp hw.start)
        (Binary64.le_iff_scalar.mp hw.le) (Binary64.le_iff_scalar.mp hw.stop)
    have hordered : Ordered (Stamped.times cut) := h.sublist ((windowRows_sublist hcut).map _)
    rw [← windowRows_bounds h] at hcut hdirect
    rw [← windowRows_bounds hordered] at hout
    exact ⟨cut, out, hcut, hout, hdirect⟩
  constructor
  · intro t ht
    obtain ⟨cut, out, hcut, hout, hdirect⟩ := hrows ht.ordered
    refine ⟨⟨t.names, cut⟩, ⟨t.names, out⟩, ?_, ?_, ?_⟩ <;> rw [Table.window]
    · rw [hcut]
      rfl
    · rw [hout]
      rfl
    · rw [hdirect]
      rfl
  · intro s hs
    obtain ⟨cut, out, hcut, hout, hdirect⟩ := hrows hs
    refine ⟨⟨s.name, cut⟩, ⟨s.name, out⟩, ?_, ?_, ?_⟩ <;> rw [Series.window]
    · rw [hcut]
      rfl
    · rw [hout]
      rfl
    · rw [hdirect]
      rfl

/-- A window without a start, and one inside it that opens nearest to 4, which the outer window cuts
off from the row after it. -/
theorem window_nested_of_four_rows :
    let t : Table Float := ⟨["v"], [⟨0, [.int 1]⟩, ⟨3, [.int 2]⟩, ⟨5, [.int 3]⟩, ⟨9, [.int 4]⟩]⟩
    let s : Series Float := ⟨"v", [⟨0, 1⟩, ⟨3, 2⟩]⟩
    let w : Window Float := ⟨some 4, some 4⟩
    let outer : Window Float := ⟨none, some 6⟩
    t.Valid ∧ s.Valid ∧ w.Within outer ∧
      (∃ cut out, t.window outer .nearest false = .ok cut ∧
        cut.window w .nearest false = .ok out ∧ t.window w .nearest false = .ok out) ∧
      (∃ cut out, s.window outer .nearest false = .ok cut ∧
        cut.window w .nearest false = .ok out ∧ s.window w .nearest false = .ok out) := by
  intro t s w outer
  have ht : t.Valid := ⟨checkIndex_eq_ok.mp rfl, by decide, by decide⟩
  have hs : s.Valid := checkIndex_eq_ok.mp rfl
  have hw : w.Within outer := ⟨by decide, by decide, by decide⟩
  exact ⟨ht, hs, hw, (window_nested .nearest hw).1 t ht, (window_nested .nearest hw).2 s hs⟩

end StepSignal
