import Mathlib.Order.Bounds.Defs
import StepSignal.Proofs.Binary64.Neighbours
import StepSignal.Proofs.Index

/-!
# What lookup finds

Padding finds the greatest time at or below the one that is looked up, filling back the least one at
or above it, and each finds nothing only if there is no such time. The nearest row is chosen among
the two neighbours of the time, by distances that are rounded. Rounding keeps the order of the exact
distances, so no other row comes out closer than the neighbour on its side.
-/

namespace StepSignal

open Scalar

/-- The distance between two times, as subtraction computes it: the smaller one is taken from the
larger one. -/
def distance {α : Type} [Scalar α] (a b : α) : α := if lt a b then b - a else a - b

variable {α : Type} [Scalar α] [LawfulScalar α] {index : List α} {target s t : α} {row : Nat}

/-! ## Distances -/

/-- Going back from a time, distances grow. -/
theorem distance_le_of_before (htarget : isFinite target = true) (ht : isFinite t = true)
    (hs : isFinite s = true) (hst : toRat s ≤ toRat t) (htt : toRat t ≤ toRat target) :
    toRat (distance target t) ≤ toRat (distance target s) := by
  have hnum := LawfulScalar.isMissing_of_isFinite (α := α)
  have hlt : ∀ {u}, isFinite u = true → toRat u ≤ toRat target → lt target u = false :=
    fun hu hle => by rw [lt_eq (hnum _ htarget) (hnum _ hu), decide_eq_false hle.not_gt]
  rw [distance, distance, hlt ht htt, hlt hs (hst.trans htt)]
  exact LawfulScalar.sub_le_sub target t target s htarget ht htarget hs le_rfl hst

/-- Going on from a time, distances grow. -/
theorem distance_le_of_after (htarget : isFinite target = true) (ht : isFinite t = true)
    (hs : isFinite s = true) (htt : toRat target ≤ toRat t) (hts : toRat t ≤ toRat s) :
    toRat (distance target t) ≤ toRat (distance target s) := by
  have hnum := LawfulScalar.isMissing_of_isFinite (α := α)
  rw [distance, distance, lt_eq (hnum _ htarget) (hnum _ ht), lt_eq (hnum _ htarget) (hnum _ hs)]
  -- a time that is hit has no distance, whichever way it is taken
  by_cases ht' : toRat target < toRat t
  · rw [decide_eq_true ht', decide_eq_true (ht'.trans_le hts)]
    exact LawfulScalar.sub_le_sub t target s target ht htarget hs htarget hts le_rfl
  · rw [decide_eq_false ht']
    by_cases hs' : toRat target < toRat s
    · rw [decide_eq_true hs']
      exact LawfulScalar.sub_le_sub target t s target htarget ht hs htarget (htt.trans hts) htt
    · rw [decide_eq_false hs']
      exact LawfulScalar.sub_le_sub target t target s htarget ht htarget hs le_rfl
        ((not_lt.mp hs').trans htt)

theorem isMissing_distance (htarget : isFinite target = true) (ht : isFinite t = true) :
    isMissing (distance target t) = false := by
  unfold distance
  split
  · exact LawfulScalar.isMissing_sub t target ht htarget
  · exact LawfulScalar.isMissing_sub target t htarget ht

/-! ## Whether a row is found -/

namespace Ordered

theorem locate_pad_eq_none_iff (h : Ordered index) (htarget : isMissing target = false) :
    locate index target .pad = none ↔ ∀ t ∈ index, toRat target < toRat t := by
  rcases h.hits_or_misses htarget with ⟨i, t, hi, heq⟩ | ⟨n, hm⟩
  · rw [h.locate_hit htarget hi heq]
    exact iff_of_false (nomatch ·) fun hall => heq.not_gt (hall t (List.mem_of_getElem? hi))
  · rw [h.locate_miss htarget hm]
    dsimp only
    split <;> rename_i hn
    · subst hn
      refine iff_of_true rfl fun t ht => ?_
      obtain ⟨i, hi⟩ := List.mem_iff_getElem?.mp ht
      exact hm.after i t hi (Nat.zero_le i)
    · have hle := hm.le_length
      have hfirst := List.getElem?_eq_getElem (show 0 < index.length by omega)
      exact iff_of_false (nomatch ·) fun hall =>
        (hm.before 0 _ hfirst (by omega)).not_gt (hall _ (List.mem_of_getElem? hfirst))

theorem locate_backfill_eq_none_iff (h : Ordered index) (htarget : isMissing target = false) :
    locate index target .backfill = none ↔ ∀ t ∈ index, toRat t < toRat target := by
  rcases h.hits_or_misses htarget with ⟨i, t, hi, heq⟩ | ⟨n, hm⟩
  · rw [h.locate_hit htarget hi heq]
    exact iff_of_false (nomatch ·) fun hall => heq.not_lt (hall t (List.mem_of_getElem? hi))
  · rw [h.locate_miss htarget hm]
    dsimp only
    split <;> rename_i hn
    · have hrow := List.getElem?_eq_getElem hn
      exact iff_of_false (nomatch ·) fun hall =>
        (hm.after n _ hrow le_rfl).not_gt (hall _ (List.mem_of_getElem? hrow))
    · refine iff_of_true rfl fun t ht => ?_
      obtain ⟨i, hi⟩ := List.mem_iff_getElem?.mp ht
      have hlen := (List.getElem?_eq_some_iff.mp hi).1
      exact hm.before i t hi (by omega)

/-! ## The neighbours of a time -/

/-- Padding finds the greatest time that is not later. -/
theorem locate_pad_eq_some_iff (h : Ordered index) (htarget : isMissing target = false) :
    locate index target .pad = some row ↔ ∃ t, index[row]? = some t ∧
      toRat t ≤ toRat target ∧ ∀ s ∈ index, toRat s ≤ toRat target → toRat s ≤ toRat t := by
  have hfound : ∀ {row}, locate index target .pad = some row → ∃ t, index[row]? = some t ∧
      toRat t ≤ toRat target ∧ ∀ s ∈ index, toRat s ≤ toRat target → toRat s ≤ toRat t := by
    intro row hl
    have hstands := h.stands_of_locate htarget hl
    have hrow := List.getElem?_eq_getElem hstands.lt_length
    refine ⟨_, hrow, h.locate_pad_le htarget hl hrow, fun s hs hle => ?_⟩
    obtain ⟨i, hi⟩ := List.mem_iff_getElem?.mp hs
    have hir : i ≤ row := not_lt.mp fun hlt => (hstands.after i s hi hlt).not_ge hle
    exact h.le_of_le hi hrow hir
  refine ⟨hfound, fun ⟨t, hrow, hle, hgreatest⟩ => ?_⟩
  have ht := List.mem_of_getElem? hrow
  rcases hl : locate index target .pad with - | row'
  · exact absurd ((h.locate_pad_eq_none_iff htarget).mp hl t ht) hle.not_gt
  · obtain ⟨t', hrow', hle', hgreatest'⟩ := hfound hl
    have heq := (hgreatest t' (List.mem_of_getElem? hrow') hle').antisymm (hgreatest' t ht hle)
    rw [h.eq_of_toRat_eq hrow' hrow heq]

/-- Filling back finds the least time that is not earlier. -/
theorem locate_backfill_eq_some_iff (h : Ordered index) (htarget : isMissing target = false) :
    locate index target .backfill = some row ↔ ∃ t, index[row]? = some t ∧
      toRat target ≤ toRat t ∧ ∀ s ∈ index, toRat target ≤ toRat s → toRat t ≤ toRat s := by
  have hfound : ∀ {row}, locate index target .backfill = some row → ∃ t, index[row]? = some t ∧
      toRat target ≤ toRat t ∧ ∀ s ∈ index, toRat target ≤ toRat s → toRat t ≤ toRat s := by
    intro row hl
    have hstands := h.stands_of_locate htarget hl
    have hrow := List.getElem?_eq_getElem hstands.lt_length
    refine ⟨_, hrow, h.le_locate_backfill htarget hl hrow, fun s hs hle => ?_⟩
    obtain ⟨i, hi⟩ := List.mem_iff_getElem?.mp hs
    have hri : row ≤ i := not_lt.mp fun hlt => (hstands.before i s hi hlt).not_ge hle
    exact h.le_of_le hrow hi hri
  refine ⟨hfound, fun ⟨t, hrow, hle, hleast⟩ => ?_⟩
  have ht := List.mem_of_getElem? hrow
  rcases hl : locate index target .backfill with - | row'
  · exact absurd ((h.locate_backfill_eq_none_iff htarget).mp hl t ht) hle.not_gt
  · obtain ⟨t', hrow', hle', hleast'⟩ := hfound hl
    have heq := (hleast' t ht hle).antisymm (hleast t' (List.mem_of_getElem? hrow') hle')
    rw [h.eq_of_toRat_eq hrow' hrow heq]

/-! ## The nearest row -/

/-- The nearest row to a time that misses the index: an outermost one for a time beyond the ends,
and the closer of both neighbours for a time between them, which is finite as they are. -/
theorem locate_nearest_miss (h : Ordered index) (htarget : isMissing target = false)
    (hne : index ≠ []) {n : Nat} (hm : Misses index target n) :
    (n = 0 ∧ locate index target .nearest = some 0) ∨
      (∃ m, n = m + 1 ∧ n = index.length ∧ locate index target .nearest = some m) ∨
      ∃ m, n = m + 1 ∧ n < index.length ∧ isFinite target = true ∧
        locate index target .nearest = closer index target m n := by
  have hlen := List.length_pos_iff.mpr hne
  have hle := hm.le_length
  rw [h.locate_miss htarget hm]
  dsimp only
  rcases n with - | m
  · exact .inl ⟨rfl, by simp [hlen]⟩
  rcases hle.lt_or_eq with hlt | heq
  · have hb := List.getElem?_eq_getElem (show m < index.length by omega)
    have ha := List.getElem?_eq_getElem hlt
    have hfinite := LawfulScalar.isFinite_of_le_of_le _ target _ (h.1 _ (List.mem_of_getElem? hb))
      (h.1 _ (List.mem_of_getElem? ha)) htarget (hm.before m _ hb (by omega)).le
      (hm.after _ _ ha le_rfl).le
    exact .inr (.inr ⟨m, rfl, hlt, hfinite, by simp [hlt]⟩)
  · have hlast : ¬ m + 1 < index.length := heq.not_lt
    exact .inr (.inl ⟨m, rfl, heq, by simp [hlast]⟩)

/-- Between the two neighbours of a time, the closer row is the one whose distance is smaller. -/
theorem closer_le (h : Ordered index) (htarget : isFinite target = true) {n : Nat}
    (hm : Misses index target (n + 1)) (hlen : n + 1 < index.length) :
    ∃ row t, closer index target n (n + 1) = some row ∧ index[row]? = some t ∧
      toRat (distance target t) ≤ toRat (distance target index[n]) ∧
      toRat (distance target t) ≤ toRat (distance target index[n + 1]) := by
  have hb := List.getElem?_eq_getElem (show n < index.length by omega)
  have ha := List.getElem?_eq_getElem hlen
  have hbfinite := h.1 _ (List.mem_of_getElem? hb)
  have hafinite := h.1 _ (List.mem_of_getElem? ha)
  have hnum := LawfulScalar.isMissing_of_isFinite (α := α)
  have hbd : distance target index[n] = target - index[n] := by
    rw [distance, lt_eq (hnum _ htarget) (hnum _ hbfinite),
      decide_eq_false (hm.before n _ hb (by omega)).not_gt, if_neg Bool.false_ne_true]
  have had : distance target index[n + 1] = index[n + 1] - target := by
    rw [distance, lt_eq (hnum _ htarget) (hnum _ hafinite),
      decide_eq_true (hm.after _ _ ha le_rfl), if_pos rfl]
  simp only [closer, hb, ha]
  rw [lt_eq (LawfulScalar.isMissing_sub _ _ htarget hbfinite)
    (LawfulScalar.isMissing_sub _ _ hafinite htarget), ← hbd, ← had]
  by_cases hlt : toRat (distance target index[n]) < toRat (distance target index[n + 1])
  · exact ⟨n, index[n], by rw [decide_eq_true hlt, if_pos rfl], hb, le_rfl, hlt.le⟩
  · exact ⟨n + 1, index[n + 1], by rw [decide_eq_false hlt, if_neg Bool.false_ne_true], ha,
      not_lt.mp hlt, le_rfl⟩

/-- A row is nearest to every time that is not missing, unless there are no rows. -/
theorem exists_locate_nearest (h : Ordered index) (htarget : isMissing target = false)
    (hne : index ≠ []) : ∃ row, locate index target .nearest = some row := by
  rcases h.hits_or_misses htarget with ⟨i, t, hi, heq⟩ | ⟨n, hm⟩
  · exact ⟨i, h.locate_hit htarget hi heq .nearest⟩
  rcases h.locate_nearest_miss htarget hne hm with
    ⟨-, hfound⟩ | ⟨m, -, -, hfound⟩ | ⟨m, rfl, hlen, hfinite, hfound⟩
  · exact ⟨0, hfound⟩
  · exact ⟨m, hfound⟩
  · obtain ⟨row, t, hcloser, -⟩ := h.closer_le hfinite hm hlen
    exact ⟨row, hfound.trans hcloser⟩

theorem locate_nearest_eq_none_iff (h : Ordered index) (htarget : isMissing target = false) :
    locate index target .nearest = none ↔ index = [] := by
  constructor
  · intro hnone
    by_contra hne
    obtain ⟨row, hrow⟩ := h.exists_locate_nearest htarget hne
    rw [hnone] at hrow
    cases hrow
  · rintro rfl
    simp [locate, partitionPoint_eq .nil]

/-- No time of the index is closer to a finite time than that of the nearest row. -/
theorem locate_nearest_le (h : Ordered index) (htarget : isFinite target = true)
    (hl : locate index target .nearest = some row) (hrow : index[row]? = some t) (hs : s ∈ index) :
    toRat (distance target t) ≤ toRat (distance target s) := by
  have hnum := LawfulScalar.isMissing_of_isFinite target htarget
  have htfinite := h.1 t (List.mem_of_getElem? hrow)
  have hsfinite := h.1 s hs
  obtain ⟨i, hi⟩ := List.mem_iff_getElem?.mp hs
  rcases h.hits_or_misses hnum with ⟨j, u, hj, heq⟩ | ⟨n, hm⟩
  · obtain rfl := h.eq_of_locate hnum hj heq hl
    obtain rfl := Option.some.inj (hj.symm.trans hrow)
    rcases le_total (toRat s) (toRat u) with hle | hle
    · exact distance_le_of_before htarget htfinite hsfinite hle heq.le
    · exact distance_le_of_after htarget htfinite hsfinite heq.ge hle
  have hilen := (List.getElem?_eq_some_iff.mp hi).1
  rcases h.locate_nearest_miss hnum (List.ne_nil_of_mem hs) hm with
    ⟨rfl, hfound⟩ | ⟨m, rfl, hlen, hfound⟩ | ⟨m, rfl, hlen, -, hfound⟩
  · obtain rfl := Option.some.inj (hfound.symm.trans hl)
    exact distance_le_of_after htarget htfinite hsfinite (hm.after 0 t hrow le_rfl).le
      (h.le_of_le hrow hi (Nat.zero_le i))
  · obtain rfl := Option.some.inj (hfound.symm.trans hl)
    exact distance_le_of_before htarget htfinite hsfinite (h.le_of_le hi hrow (by omega))
      (hm.before m t hrow (by omega)).le
  · obtain ⟨row', t', hcloser, hrow', hbefore, hafter⟩ := h.closer_le htarget hm hlen
    obtain rfl := Option.some.inj (hcloser.symm.trans (hfound.symm.trans hl))
    obtain rfl := Option.some.inj (hrow'.symm.trans hrow)
    have hb := List.getElem?_eq_getElem (show m < index.length by omega)
    have ha := List.getElem?_eq_getElem hlen
    -- the neighbour on the side of `s` is between it and the target
    rcases Nat.lt_or_ge i (m + 1) with hlt | hge
    · exact hbefore.trans (distance_le_of_before htarget (h.1 _ (List.mem_of_getElem? hb)) hsfinite
        (h.le_of_le hi hb (by omega)) (hm.before m _ hb (by omega)).le)
    · exact hafter.trans (distance_le_of_after htarget (h.1 _ (List.mem_of_getElem? ha)) hsfinite
        (hm.after _ _ ha le_rfl).le (h.le_of_le ha hi hge))

end Ordered

/-! ## Doubles -/

namespace Binary64

open Float.Model (UnpackedFloat Format)

/-- Every finite double is infinitely far from an infinite one. -/
theorem distance_infinite {x y : Float} (hx : x.isNaN = false) (hinfinite : x.isFinite = false)
    (hy : y.isFinite = true) :
    (distance x y).isNaN = false ∧ units (distance x y) = infinityUnits := by
  have hunpack : y.toModel.unpack.isFinite = true := hy
  -- what is finite is swallowed, on whichever side the infinity is
  have hsub : ∀ u : UnpackedFloat, u.isFinite = true →
      UnpackedFloat.sub .binary64 (.infinity .positive) u = .infinity .positive ∧
        UnpackedFloat.sub .binary64 u (.infinity .negative) = .infinity .positive := by
    intro u hu
    cases u with
    | notANumber | infinity s => cases hu
    | zero s | finite s m e hm => exact ⟨rfl, rfl⟩
  have hdenotes : Denotes (Float.Model.pack (.infinity .positive)).unpack infinityUnits :=
    ⟨nofun, rfl⟩
  rw [isNaN_eq_false_iff]
  show Denotes (distance x y).toModel.unpack infinityUnits
  rw [eq_infinity hx hinfinite, distance]
  cases isNegative x with
  | true =>
    have hlt : lt (-1.0 / 0.0) y = true := decide_eq_true (neg_infinity_lt hy)
    rw [if_pos rfl, hlt, if_pos rfl]
    show Denotes (Float.Model.pack (UnpackedFloat.sub .binary64 y.toModel.unpack
      (.infinity .negative))).unpack infinityUnits
    rwa [(hsub _ hunpack).2]
  | false =>
    have hgt : lt y (1.0 / 0.0) = true := decide_eq_true (lt_infinity hy)
    obtain ⟨hynum, htop, hgt⟩ := (LawfulScalar.lt_iff _ _).mp hgt
    have hlt : lt (1.0 / 0.0) y = false := by rw [lt_eq htop hynum, decide_eq_false hgt.not_gt]
    rw [if_neg Bool.false_ne_true, hlt, if_neg Bool.false_ne_true]
    show Denotes (Float.Model.pack (UnpackedFloat.sub .binary64 (.infinity .positive)
      y.toModel.unpack)).unpack infinityUnits
    rwa [(hsub _ hunpack).1]

/-- No time of the index is closer than that of the nearest row, also to an infinite one. -/
theorem distance_nearest_le {index : List Float} {target s t : Float} (h : Ordered index)
    (htarget : target.isNaN = false) (hl : locate index target .nearest = some row)
    (hrow : index[row]? = some t) (hs : s ∈ index) : distance target t ≤ distance target s := by
  have htfinite := h.1 t (List.mem_of_getElem? hrow)
  have hsfinite := h.1 s hs
  cases hfinite : target.isFinite with
  | true =>
    rw [le_iff_toRat (isMissing_distance hfinite htfinite) (isMissing_distance hfinite hsfinite)]
    exact h.locate_nearest_le hfinite hl hrow hs
  | false =>
    obtain ⟨htnum, htunits⟩ := distance_infinite htarget hfinite htfinite
    obtain ⟨hsnum, hsunits⟩ := distance_infinite htarget hfinite hsfinite
    exact le_iff_units.mpr ⟨htnum, hsnum, (htunits.trans hsunits.symm).le⟩

variable {index : List Float} {target t : Float} (hnum : ∀ t ∈ index, isMissing t = false)
  (htarget : isMissing target = false) (ht : t ∈ index)
include hnum htarget ht

theorem isGreatest_iff_toRat : IsGreatest {s | s ∈ index ∧ s ≤ target} t ↔
    toRat t ≤ toRat target ∧ ∀ s ∈ index, toRat s ≤ toRat target → toRat s ≤ toRat t := by
  constructor
  · rintro ⟨⟨-, hle⟩, hupper⟩
    refine ⟨(le_iff_toRat (hnum t ht) htarget).mp hle, fun s hs hst => ?_⟩
    exact (le_iff_toRat (hnum s hs) (hnum t ht)).mp
      (hupper ⟨hs, (le_iff_toRat (hnum s hs) htarget).mpr hst⟩)
  · rintro ⟨hle, hupper⟩
    refine ⟨⟨ht, (le_iff_toRat (hnum t ht) htarget).mpr hle⟩, fun s ⟨hs, hst⟩ => ?_⟩
    exact (le_iff_toRat (hnum s hs) (hnum t ht)).mpr
      (hupper s hs ((le_iff_toRat (hnum s hs) htarget).mp hst))

theorem isLeast_iff_toRat : IsLeast {s | s ∈ index ∧ target ≤ s} t ↔
    toRat target ≤ toRat t ∧ ∀ s ∈ index, toRat target ≤ toRat s → toRat t ≤ toRat s := by
  constructor
  · rintro ⟨⟨-, hle⟩, hlower⟩
    refine ⟨(le_iff_toRat htarget (hnum t ht)).mp hle, fun s hs hts => ?_⟩
    exact (le_iff_toRat (hnum t ht) (hnum s hs)).mp
      (hlower ⟨hs, (le_iff_toRat htarget (hnum s hs)).mpr hts⟩)
  · rintro ⟨hle, hlower⟩
    refine ⟨⟨ht, (le_iff_toRat htarget (hnum t ht)).mpr hle⟩, fun s ⟨hs, hts⟩ => ?_⟩
    exact (le_iff_toRat (hnum t ht) (hnum s hs)).mpr
      (hlower s hs ((le_iff_toRat htarget (hnum s hs)).mp hts))

end Binary64

open Binary64 in
/-- **Lookup is exact.** Let the times of an index be finite and increasing, and let a time that is
looked up be a number, infinite ones allowed. Padding finds the row of the greatest time at or below
it, and none only if there is no such time; filling back finds the row of the least time at or above
it, and none only if there is no such time. The nearest row is there unless the index is empty, and
no time of the index has a smaller distance, as subtraction computes it. Whatever the seek, a later
time is never found at an earlier row. -/
theorem locate_exact {index : List Float} (h : Ordered index) {target : Float}
    (htarget : target.isNaN = false) :
    (∀ row, locate index target .pad = some row ↔
      ∃ t, index[row]? = some t ∧ IsGreatest {s | s ∈ index ∧ s ≤ target} t) ∧
    (locate index target .pad = none ↔ ∀ t ∈ index, ¬ t ≤ target) ∧
    (∀ row, locate index target .backfill = some row ↔
      ∃ t, index[row]? = some t ∧ IsLeast {s | s ∈ index ∧ target ≤ s} t) ∧
    (locate index target .backfill = none ↔ ∀ t ∈ index, ¬ target ≤ t) ∧
    (locate index target .nearest = none ↔ index = []) ∧
    (∀ row, locate index target .nearest = some row →
      ∃ t, index[row]? = some t ∧ ∀ s ∈ index, distance target t ≤ distance target s) ∧
    ∀ seek later row row', target ≤ later → locate index target seek = some row →
      locate index later seek = some row' → row ≤ row' := by
  have hnum : ∀ t ∈ index, isMissing t = false := fun t ht => h.isMissing_of_mem ht
  refine ⟨fun row => ?_, ?_, fun row => ?_, ?_, h.locate_nearest_eq_none_iff htarget,
    fun row hl => ?_, fun seek later row row' hle hl hl' => ?_⟩
  · rw [h.locate_pad_eq_some_iff htarget]
    refine exists_congr fun t => and_congr_right fun hrow => ?_
    exact (isGreatest_iff_toRat hnum htarget (List.mem_of_getElem? hrow)).symm
  · rw [h.locate_pad_eq_none_iff htarget]
    refine forall₂_congr fun t ht => ?_
    rw [le_iff_toRat (hnum t ht) htarget, not_le]
  · rw [h.locate_backfill_eq_some_iff htarget]
    refine exists_congr fun t => and_congr_right fun hrow => ?_
    exact (isLeast_iff_toRat hnum htarget (List.mem_of_getElem? hrow)).symm
  · rw [h.locate_backfill_eq_none_iff htarget]
    refine forall₂_congr fun t ht => ?_
    rw [le_iff_toRat htarget (hnum t ht), not_le]
  · have hrow := List.getElem?_eq_getElem (h.stands_of_locate htarget hl).lt_length
    exact ⟨_, hrow, fun s hs => distance_nearest_le h htarget hl hrow hs⟩
  · obtain ⟨-, hlater, -⟩ := le_iff_units.mp hle
    exact h.locate_mono htarget hlater ((le_iff_toRat htarget hlater).mp hle) hl hl'

/-- A time a quarter of the way between two of four times, and infinity after it. -/
theorem locate_exact_of_four_times :
    let index : List Float := [1, 2, 4, 8]
    Ordered index ∧ (2.5 : Float).isNaN = false ∧ (1 / 0 : Float).isNaN = false ∧
      IsGreatest {s | s ∈ index ∧ s ≤ 2.5} 2 ∧ IsLeast {s | s ∈ index ∧ 2.5 ≤ s} 4 ∧
      (∀ s ∈ index, distance 2.5 2 ≤ distance 2.5 s) ∧
      (∀ s ∈ index, distance (1 / 0) 8 ≤ distance (1 / 0) s) ∧
      ∀ row row', locate index 2.5 .nearest = some row →
        locate index (1 / 0) .nearest = some row' → row ≤ row' := by
  intro index
  have h : Ordered index := checkIndex_eq_ok.mp (by decide)
  have hnum : (2.5 : Float).isNaN = false := by decide
  have hinfinite : (1 / 0 : Float).isNaN = false := by decide
  obtain ⟨hpad, -, hback, -, -, hnearest, hmono⟩ := locate_exact h hnum
  obtain ⟨-, -, -, -, -, hnearest', -⟩ := locate_exact h hinfinite
  obtain ⟨t, ht, hgreatest⟩ := (hpad 1).mp (by decide +kernel)
  obtain rfl : 2 = t := Option.some.inj ht
  obtain ⟨t, ht, hleast⟩ := (hback 2).mp (by decide +kernel)
  obtain rfl : 4 = t := Option.some.inj ht
  obtain ⟨t, ht, hclosest⟩ := hnearest 1 (by decide +kernel)
  obtain rfl : 2 = t := Option.some.inj ht
  obtain ⟨t, ht, hclosest'⟩ := hnearest' 3 (by decide +kernel)
  obtain rfl : 8 = t := Option.some.inj ht
  exact ⟨h, hnum, hinfinite, hgreatest, hleast, hclosest, hclosest',
    fun row row' => hmono .nearest (1 / 0) row row' (by decide)⟩

end StepSignal
