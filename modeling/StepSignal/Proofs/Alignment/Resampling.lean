import StepSignal.Proofs.Alignment.EvenGrid

/-!
# Resampling loses no sample

Before two series are aligned both are resampled on a common grid over the times that both cover. The
steps of the grid are at most the smallest distance between two samples. So between a sample and the
next one there is a point of the grid, and at the first such point the sample is in effect. A pulse
that lasts for one sample only is therefore seen on the grid, also when what both series cover is not
a multiple of the smallest distance.
-/

namespace StepSignal

open Exact Scalar

/-! ## Covered times -/

section Covered

variable {α : Type} [Scalar α]

/-- A time that a series covers: at or after its first and at or before its last one. -/
def Series.Covers (s : Series α) (t : α) : Prop :=
  (∃ first, s.times.head? = some first ∧ le first t = true) ∧
    ∃ last, s.times.getLast? = some last ∧ le t last = true

variable [LawfulScalar α] {s a b : Series α} {start stop : α} {points : List α}

/-- The overlap of two series is made of the times that both cover. -/
theorem Series.Valid.covers_iff (ha : a.Valid) (hb : b.Valid)
    (h : a.overlap b = .ok (start, stop)) (t : α) :
    a.Covers t ∧ b.Covers t ↔ le start t = true ∧ le t stop = true := by
  unfold Series.overlap at h
  split at h
  · rename_i a₀ b₀ a₁ b₁ ha₀ hb₀ ha₁ hb₁
    have hna₀ := Ordered.isMissing_of_mem ha (List.mem_of_mem_head? ha₀)
    have hnb₀ := Ordered.isMissing_of_mem hb (List.mem_of_mem_head? hb₀)
    have hna₁ := Ordered.isMissing_of_mem ha (List.mem_of_getLast? ha₁)
    have hnb₁ := Ordered.isMissing_of_mem hb (List.mem_of_getLast? hb₁)
    dsimp only at h
    split at h
    · cases h
    cases h
    simp only [Series.Covers, ha₀, hb₀, ha₁, hb₁, Option.some.injEq, exists_eq_left',
      max_le_eq hna₀ hnb₀, le_min_eq hna₁ hnb₁, Bool.and_eq_true]
    tauto
  · cases h

/-- A complete series is complete on times that it covers. -/
theorem Series.Valid.hasMissing_resample (hs : s.Valid) (hcomplete : s.hasMissing = false)
    (hcovers : ∀ t ∈ points, s.Covers t) : (s.resample points).hasMissing = false := by
  rw [Series.hasMissing, List.any_eq_false] at hcomplete ⊢
  rw [Series.values_resample]
  intro v hv
  obtain ⟨t, ht, rfl⟩ := List.mem_map.mp hv
  obtain ⟨⟨first, hfirst, hle⟩, -⟩ := hcovers t ht
  obtain ⟨w, hw, hat⟩ := hs.exists_valueAt hfirst hle
  rw [hat]
  exact hcomplete w hw

end Covered

/-! ## Kept samples -/

/-- On some times no sample of a series from `start` to `stop` is lost. Each is in effect at one of
the times, at or after its own time and before the next sample, so the resampled series has its value
there. -/
def Series.KeptOn {α : Type} [Scalar α] (s : Series α) (start stop : α) (points : List α) : Prop :=
  ∀ (i : Nat) (sample : Stamped α α), s.samples[i]? = some sample →
    le start sample.time = true → le sample.time stop = true →
    ∃ point ∈ points, le sample.time point = true ∧
      (∀ next, s.samples[i + 1]? = some next → lt point next.time = true) ∧
      s.valueAt point = some sample.value ∧ ⟨point, sample.value⟩ ∈ (s.resample points).samples

section Exact

variable {s reference moved : Series Exact} {maxShift : Option Exact} {out : Alignment Exact}

/-- Even times whose step is at most the distance of any two neighbouring samples keep all samples. -/
theorem Series.Valid.keptOn (hs : s.Valid) {start stop step period : Rat} {steps : Nat}
    (heven : SpansEvenly start stop step steps) (hpos : 0 < period) (hstep : step ≤ period)
    (hperiod : ∀ (i : Nat) (a b : Exact), s.times[i]? = some a → s.times[i + 1]? = some b →
      period ≤ toRat (b - a)) :
    s.KeptOn (num start) (num stop) (exact (evenTimes start step steps)) := by
  intro i sample hi hlo hhi
  have htime := Stamped.getElem?_times hi
  obtain ⟨t, ht⟩ := eq_num_of_isFinite (hs.1 _ (List.mem_of_getElem? htime))
  rw [ht, le_num, decide_eq_true_eq] at hlo hhi
  obtain ⟨k, hk, hle, hlt⟩ := heven.exists_within hlo hhi hpos hstep
  have hpoint : num (start + k * step) ∈ exact (evenTimes start step steps) :=
    List.mem_map_of_mem (mem_evenTimes.mpr ⟨k, hk, rfl⟩)
  have hbegun : Scalar.le sample.time (num (start + k * step)) = true := by
    rw [ht, le_num, decide_eq_true hle]
  have hnext : ∀ next, s.samples[i + 1]? = some next →
      lt (num (start + k * step)) next.time = true := by
    intro next hnext
    have htime' := Stamped.getElem?_times hnext
    obtain ⟨u, hu⟩ := eq_num_of_isFinite (hs.1 _ (List.mem_of_getElem? htime'))
    have hgap := hperiod i _ _ htime htime'
    rw [ht, hu, num_sub_num, toRat_num] at hgap
    rw [hu, lt_num, decide_eq_true_eq]
    linarith
  have hat := hs.valueAt_between hi hbegun hnext
  refine ⟨_, hpoint, hbegun, hnext, hat, ?_⟩
  rw [Series.samples_resample]
  apply List.mem_map.mpr
  exact ⟨_, hpoint, by rw [hat, Option.getD_some]⟩

/-- Both series cover all times of the grid that they are aligned on. -/
theorem Series.AlignsOn.covers {start stop period : Exact} {grid : TimeGrid Exact}
    (h : reference.AlignsOn moved maxShift start stop period grid) (hr : reference.Valid)
    (hm : moved.Valid) : ∀ t ∈ grid.points, reference.Covers t ∧ moved.Covers t := by
  obtain ⟨a, b, p, step, steps, rfl, rfl, rfl, rfl, hforward, -, -, heven⟩ := h.exists_even hr hm
  intro t ht
  obtain ⟨q, hq, rfl⟩ := List.mem_map.mp ht
  obtain ⟨hlo, hhi⟩ := heven.mem_bounds hforward hq
  rw [hr.covers_iff hm h.overlap, le_num, le_num]
  exact ⟨decide_eq_true hlo, decide_eq_true hhi⟩

/-- Both series are complete on the grid that they are aligned on. -/
theorem Series.AlignsOn.complete {start stop period : Exact} {grid : TimeGrid Exact}
    (h : reference.AlignsOn moved maxShift start stop period grid) (hr : reference.Valid)
    (hm : moved.Valid) : (reference.resample grid.points).hasMissing = false ∧
      (moved.resample grid.points).hasMissing = false := by
  have hcovers := h.covers hr hm
  exact ⟨hr.hasMissing_resample h.referenceComplete fun t ht => (hcovers t ht).1,
    hm.hasMissing_resample h.movedComplete fun t ht => (hcovers t ht).2⟩

/-- **Resampling loses no sample.** Two series that are aligned have a common grid over exactly the
times that both cover, in equal steps forward, or of one time if that is all. Both are complete on it,
and no sample of either one that the grid spans is lost. -/
theorem Series.align_keeps_samples (hr : reference.Valid) (hm : moved.Valid)
    (h : reference.align moved maxShift = .ok out) :
    ∃ (start stop step : Rat) (steps : Nat), start ≤ stop ∧
      (∀ t, reference.Covers t ∧ moved.Covers t ↔
        le (num start) t = true ∧ le t (num stop) = true) ∧
      (let points := out.reference.times
       points = exact (evenTimes start step steps) ∧ SpansEvenly start stop step steps ∧
       out.step = num step ∧ Ordered points ∧ (start = stop → points = [num start]) ∧
       (reference.resample points).hasMissing = false ∧ (moved.resample points).hasMissing = false ∧
       reference.KeptOn (num start) (num stop) points ∧ moved.KeptOn (num start) (num stop) points ∧
       out.reference = reference.resample points ∧ out.aligned.times = points ∧
       out.aligned.values = shiftValues (moved.resample points).values out.shift) := by
  obtain ⟨start, stop, period, grid, hparts, rfl⟩ := Series.align_eq_ok_iff.mp h
  have htimes := Series.times_alignedOn reference moved maxShift period grid
  have hvalues := Series.values_alignedOn reference moved maxShift period grid
  obtain ⟨hrcomplete, hmcomplete⟩ := hparts.complete hr hm
  obtain ⟨a, b, p, step, steps, rfl, rfl, rfl, rfl, hforward, hpos, hstep, heven⟩ :=
    hparts.exists_even hr hm
  have hsingle : a = b → exact (evenTimes a step steps) = [num a] := by
    intro heq
    obtain ⟨rfl, rfl⟩ := heven.single heq
    simp [evenTimes, exact]
  refine ⟨a, b, step, steps, hforward, hr.covers_iff hm hparts.overlap, ?_⟩
  rw [htimes.1]
  exact ⟨rfl, heven, rfl, ordered_evenTimes (heven.step_pos hforward), hsingle, hrcomplete, hmcomplete,
    hr.keptOn heven hpos hstep fun _ _ _ ht hu => hparts.period_le hr hm (.inl rfl) ht hu,
    hm.keptOn heven hpos hstep fun _ _ _ ht hu => hparts.period_le hr hm (.inr rfl) ht hu,
    rfl, htimes.2, hvalues⟩

/-- A pulse of one sample in each series. Both cover a span of five, and the smallest distance is two. -/
theorem Series.align_keeps_samples_of_pulse :
    let reference : Series Exact := ⟨"a", [⟨num 0, num 0⟩, ⟨num 2, num 1⟩, ⟨num 7, num 0⟩]⟩
    let moved : Series Exact := ⟨"b", [⟨num 1, num 0⟩, ⟨num 4, num 1⟩, ⟨num 6, num 0⟩]⟩
    let points := [num 1, num (8 / 3), num (13 / 3), num 6]
    reference.Valid ∧ moved.Valid ∧ ∃ out, reference.align moved none = .ok out ∧
      out.reference.times = points ∧ out.step = num (5 / 3) ∧
      (reference.resample points).hasMissing = false ∧ (moved.resample points).hasMissing = false ∧
      ∃ start stop : Rat, reference.KeptOn (num start) (num stop) points ∧
        moved.KeptOn (num start) (num stop) points ∧
        ∀ t, reference.Covers t ∧ moved.Covers t ↔
          le (num start) t = true ∧ le t (num stop) = true := by
  intro reference moved points
  have hr : reference.Valid := checkIndex_eq_ok.mp rfl
  have hm : moved.Valid := checkIndex_eq_ok.mp rfl
  have hout : reference.align moved none = .ok
      ⟨⟨"a", [⟨num 1, num 0⟩, ⟨num (8 / 3), num 1⟩, ⟨num (13 / 3), num 1⟩, ⟨num 6, num 1⟩]⟩,
        ⟨"b", [⟨num 1, num 0⟩, ⟨num (8 / 3), num 0⟩, ⟨num (13 / 3), num 1⟩, ⟨num 6, num 0⟩]⟩,
        0, 0, num 2, num (5 / 3)⟩ := by
    decide +kernel
  obtain ⟨start, stop, step, steps, -, hcovers, -, -, -, -, -, hrcomplete, hmcomplete, hrkept, hmkept,
    -⟩ := Series.align_keeps_samples hr hm hout
  exact ⟨hr, hm, _, hout, rfl, rfl, hrcomplete, hmcomplete, start, stop, hrkept, hmkept, hcovers⟩

end Exact

end StepSignal
