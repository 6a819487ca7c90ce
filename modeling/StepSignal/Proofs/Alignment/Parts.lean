import StepSignal.Proofs.Alignment.Grid
import StepSignal.Proofs.Alignment.Lag
import StepSignal.Proofs.Outcome
import StepSignal.Proofs.Table

/-!
# The parts of an alignment

An alignment checks what it is given, measures the smallest distance between samples, finds what both
series cover and spans a grid over it. Everything else follows from the grid and cannot fail. The
smallest distance is the difference of two neighbouring times of one of the series, and no other two
are closer.
-/

namespace StepSignal

open Scalar

section Parts

variable {α : Type} [Scalar α] [Correlates α]

/-- The alignment of two series on a grid. -/
def Series.alignedOn (reference moved : Series α) (maxShift : Option α) (period : α)
    (grid : TimeGrid α) : Alignment α :=
  let onGrid := reference.resample grid.points
  let resampled := moved.resample grid.points
  let correlationShift := bestLag resampled.values onGrid.values
  let shift := capShift period maxShift correlationShift
  ⟨onGrid, resampled.withValues (shiftValues resampled.values shift), shift, correlationShift, period,
    grid.step⟩

omit [Correlates α] in
theorem Series.checkComplete_eq_ok {s : Series α} :
    s.checkComplete = .ok () ↔ s.hasMissing = false := by
  unfold Series.checkComplete
  split <;> simp [*]

/-- Complete series with a smallest distance and a common time are aligned on the grid over what both
cover, if there is one. -/
theorem Series.align_eq_map {reference moved : Series α} {maxShift : Option α}
    {referenceGap movedGap start stop : α} (hlimit : checkMaxShift maxShift = .ok ())
    (hreference : reference.hasMissing = false) (hmoved : moved.hasMissing = false)
    (hreferenceGap : reference.smallestGap = .ok referenceGap)
    (hmovedGap : moved.smallestGap = .ok movedGap)
    (hoverlap : reference.overlap moved = .ok (start, stop)) :
    reference.align moved maxShift =
      (TimeGrid.spanning start stop (Scalar.min referenceGap movedGap)).map
        (reference.alignedOn moved maxShift (Scalar.min referenceGap movedGap)) := by
  simp only [Series.align, hlimit, checkComplete_eq_ok.mpr hreference,
    checkComplete_eq_ok.mpr hmoved, hreferenceGap, hmovedGap, hoverlap, ok_bind]
  cases TimeGrid.spanning start stop (Scalar.min referenceGap movedGap) <;> rfl

/-- What the parts of an alignment have to give: two smallest distances, the ends of what both series
cover, and a grid over it. -/
structure Series.AlignsOn (reference moved : Series α) (maxShift : Option α) (start stop period : α)
    (grid : TimeGrid α) : Prop where
  limit : checkMaxShift maxShift = .ok ()
  referenceComplete : reference.hasMissing = false
  movedComplete : moved.hasMissing = false
  gaps : ∃ referenceGap movedGap, reference.smallestGap = .ok referenceGap ∧
    moved.smallestGap = .ok movedGap ∧ Scalar.min referenceGap movedGap = period
  overlap : reference.overlap moved = .ok (start, stop)
  grid : TimeGrid.spanning start stop period = .ok grid

/-- Two series are aligned when every part has its result. -/
theorem Series.align_eq_ok_iff {reference moved : Series α} {maxShift : Option α}
    {out : Alignment α} : reference.align moved maxShift = .ok out ↔
      ∃ start stop period grid, reference.AlignsOn moved maxShift start stop period grid ∧
        out = reference.alignedOn moved maxShift period grid := by
  constructor
  · intro h
    unfold Series.align at h
    obtain ⟨_, hmaxShift, h⟩ := bind_eq_ok.mp h
    obtain ⟨_, hreference, h⟩ := bind_eq_ok.mp h
    obtain ⟨_, hmoved, h⟩ := bind_eq_ok.mp h
    obtain ⟨referenceGap, hreferenceGap, h⟩ := bind_eq_ok.mp h
    obtain ⟨movedGap, hmovedGap, h⟩ := bind_eq_ok.mp h
    obtain ⟨⟨start, stop⟩, hoverlap, h⟩ := bind_eq_ok.mp h
    obtain ⟨grid, hgrid, h⟩ := bind_eq_ok.mp h
    exact ⟨start, stop, _, grid, ⟨hmaxShift, checkComplete_eq_ok.mp hreference,
      checkComplete_eq_ok.mp hmoved, ⟨_, _, hreferenceGap, hmovedGap, rfl⟩, hoverlap, hgrid⟩,
      (Except.ok.inj h).symm⟩
  · rintro ⟨start, stop, period, grid, h, rfl⟩
    obtain ⟨referenceGap, movedGap, hreferenceGap, hmovedGap, rfl⟩ := h.gaps
    rw [align_eq_map h.limit h.referenceComplete h.movedComplete hreferenceGap hmovedGap h.overlap,
      h.grid]
    rfl

section AlignedOn

variable (reference moved : Series α) (maxShift : Option α) (period : α) (grid : TimeGrid α)

/-- Both series of an alignment are on the grid. -/
theorem Series.times_alignedOn :
    (reference.alignedOn moved maxShift period grid).reference.times = grid.points ∧
    (reference.alignedOn moved maxShift period grid).aligned.times = grid.points := by
  refine ⟨times_resample reference grid.points, ?_⟩
  rw [← times_resample moved grid.points]
  exact times_withValues (by rw [length_shiftValues, Series.values, List.length_map])

/-- The aligned series has the resampled values, moved by the shift. -/
theorem Series.values_alignedOn :
    (reference.alignedOn moved maxShift period grid).aligned.values
      = shiftValues (moved.resample grid.points).values
          (reference.alignedOn moved maxShift period grid).shift :=
  values_withValues (by rw [length_shiftValues, Series.values, List.length_map])

end AlignedOn

end Parts

/-! ## The smallest distance -/

section Gaps

variable {α : Type} [Scalar α] {s : Series α} {index : List α} {g : α}

theorem min_eq_or (a b : α) : Scalar.min a b = a ∨ Scalar.min a b = b := by
  unfold Scalar.min
  split <;> simp

theorem foldl_min_mem (g : α) (rest : List α) : rest.foldl Scalar.min g ∈ g :: rest := by
  induction rest generalizing g with
  | nil => exact List.mem_cons_self
  | cons x rest ih =>
    rw [List.foldl_cons]
    rcases min_eq_or g x with heq | heq <;> rw [heq]
    · exact List.cons_subset_cons g (List.subset_cons_self x rest) (ih g)
    · exact List.mem_cons_of_mem _ (ih x)

theorem Series.mem_gaps_of_smallestGap (h : s.smallestGap = .ok g) : g ∈ gaps s.times := by
  unfold Series.smallestGap at h
  split at h <;> rename_i hgaps
  · cases h
  · obtain rfl := Except.ok.inj h
    rw [hgaps]
    exact foldl_min_mem _ _

theorem Series.exists_smallestGap (h : 2 ≤ s.length) : ∃ g, s.smallestGap = .ok g := by
  have hlen : 2 ≤ s.times.length := by rwa [Series.times, Stamped.length_times]
  rcases htimes : s.times with - | ⟨a, - | ⟨b, rest⟩⟩
  · simp [htimes] at hlen
  · simp [htimes] at hlen
  · rw [Series.smallestGap, htimes, gaps]
    exact ⟨_, rfl⟩

/-- Two neighbouring times have their distance among those of the index. -/
theorem sub_mem_gaps {i : Nat} {a b : α} (ha : index[i]? = some a) (hb : index[i + 1]? = some b) :
    b - a ∈ gaps index := by
  fun_induction gaps index generalizing i with
  | case1 c d rest ih =>
    cases i with
    | zero =>
      obtain rfl := Option.some.inj ha
      obtain rfl := Option.some.inj hb
      exact List.mem_cons_self
    | succ i => exact List.mem_cons_of_mem _ (ih ha hb)
  | case2 index hshort =>
    rcases index with - | ⟨c, - | ⟨d, rest⟩⟩
    · cases ha
    · cases hb
    · exact absurd rfl (hshort c d rest)

variable [LawfulScalar α]

/-- The smallest of some numbers is at most each of them. -/
theorem foldl_min_le {rest : List α} (hnumber : ∀ x ∈ g :: rest, isMissing x = false) :
    ∀ x ∈ g :: rest, toRat (rest.foldl Scalar.min g) ≤ toRat x := by
  induction rest generalizing g with
  | nil => simp
  | cons y rest ih =>
    rw [List.forall_mem_cons, List.forall_mem_cons] at hnumber
    obtain ⟨hg, hy, hrest⟩ := hnumber
    have hleast := ih (g := Scalar.min g y) (List.forall_mem_cons.mpr ⟨isMissing_min hg hy, hrest⟩)
    rw [List.forall_mem_cons, toRat_min hg hy, le_min_iff] at hleast
    exact List.forall_mem_cons.mpr ⟨hleast.1.1, List.forall_mem_cons.mpr ⟨hleast.1.2, hleast.2⟩⟩

/-- A distance in an ordered index is that of a time and a later one. -/
theorem Ordered.exists_of_mem_gaps (h : Ordered index) (hg : g ∈ gaps index) :
    ∃ a b, isFinite a = true ∧ isFinite b = true ∧ Before a b ∧ g = b - a := by
  fun_induction gaps index with
  | case1 a b rest ih =>
    rcases List.mem_cons.mp hg with rfl | hg
    · exact ⟨a, b, h.1 a (by simp), h.1 b (by simp), (List.pairwise_cons.mp h.pairwise).1 b (by simp),
        rfl⟩
    · exact ih (h.sublist (List.sublist_cons_self _ _)) hg
  | case2 => cases hg

theorem Ordered.isMissing_of_mem_gaps (h : Ordered index) (hg : g ∈ gaps index) :
    isMissing g = false := by
  obtain ⟨a, b, ha, hb, -, rfl⟩ := h.exists_of_mem_gaps hg
  exact LawfulScalar.isMissing_sub b a hb ha

/-- The smallest distance in a series is at most that of two neighbouring times. -/
theorem Series.Valid.smallestGap_le (hs : s.Valid) (h : s.smallestGap = .ok g) {i : Nat} {a b : α}
    (ha : s.times[i]? = some a) (hb : s.times[i + 1]? = some b) : toRat g ≤ toRat (b - a) := by
  have hmem := sub_mem_gaps ha hb
  have hnumber := fun x => Ordered.isMissing_of_mem_gaps (g := x) hs
  unfold Series.smallestGap at h
  split at h <;> rename_i hgaps
  · cases h
  · obtain rfl := Except.ok.inj h
    rw [hgaps] at hmem hnumber
    exact foldl_min_le hnumber _ hmem

/-- The smallest distance in two series is that of a time and a later one. -/
theorem Series.Valid.exists_period {reference moved : Series α} {referenceGap movedGap : α}
    (hr : reference.Valid) (hm : moved.Valid) (hreferenceGap : reference.smallestGap = .ok referenceGap)
    (hmovedGap : moved.smallestGap = .ok movedGap) : ∃ a b, isFinite a = true ∧ isFinite b = true ∧
      Before a b ∧ Scalar.min referenceGap movedGap = b - a := by
  rcases min_eq_or referenceGap movedGap with heq | heq <;> rw [heq]
  · exact Ordered.exists_of_mem_gaps hr (Series.mem_gaps_of_smallestGap hreferenceGap)
  · exact Ordered.exists_of_mem_gaps hm (Series.mem_gaps_of_smallestGap hmovedGap)

/-- The period is at most the distance of two neighbouring times of either series. -/
theorem Series.AlignsOn.period_le [Correlates α] {reference moved : Series α} {maxShift : Option α}
    {start stop period : α} {grid : TimeGrid α}
    (h : reference.AlignsOn moved maxShift start stop period grid) (hr : reference.Valid)
    (hm : moved.Valid) (hs : s = reference ∨ s = moved) {i : Nat} {a b : α}
    (ha : s.times[i]? = some a) (hb : s.times[i + 1]? = some b) :
    toRat period ≤ toRat (b - a) := by
  obtain ⟨referenceGap, movedGap, hreferenceGap, hmovedGap, rfl⟩ := h.gaps
  rw [toRat_min (Ordered.isMissing_of_mem_gaps hr (mem_gaps_of_smallestGap hreferenceGap))
    (Ordered.isMissing_of_mem_gaps hm (mem_gaps_of_smallestGap hmovedGap))]
  rcases hs with rfl | rfl
  · exact (min_le_left _ _).trans (hr.smallestGap_le hreferenceGap ha hb)
  · exact (min_le_right _ _).trans (hm.smallestGap_le hmovedGap ha hb)

end Gaps

end StepSignal
