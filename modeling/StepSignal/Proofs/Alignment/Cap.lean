import Mathlib.Data.Rat.Floor
import StepSignal.Proofs.Alignment.EvenGrid

/-!
# Capped alignment

A largest shift is counted in whole periods, but a series is moved by steps of the grid. The grid
has at least as many steps as periods fit into what it spans, so a step is at most a period, and as
many steps as there are whole periods in the largest shift are no more than that shift. For exact
scalars nothing rounds, and this holds whether the span is a multiple of the period or not.
-/

namespace StepSignal

open Exact Scalar

/-! ## The cap -/

section Cap

variable {α : Type} [Scalar α]

/-- A capped shift is the shift itself if that is within the cap, and else the cap in the same
direction. -/
theorem capShift_some {period limit : α} (hcap : 0 ≤ truncate (limit / period)) (shift : Int) :
    capShift period (some limit) shift =
      if |shift| ≤ truncate (limit / period) then shift
      else shift.sign * truncate (limit / period) := by
  rw [capShift]
  generalize truncate (limit / period) = cap at *
  rcases lt_trichotomy shift 0 with hneg | rfl | hpos
  · rw [Int.sign_eq_neg_one_of_neg hneg, abs_of_neg hneg]
    split <;> split <;> omega
  · simp [hcap]
  · rw [Int.sign_eq_one_of_pos hpos, abs_of_pos hpos]
    split <;> split <;> omega

theorem abs_capShift_le {period limit : α} (hcap : 0 ≤ truncate (limit / period)) (shift : Int) :
    |capShift period (some limit) shift| ≤ truncate (limit / period) := by
  rw [capShift_some hcap]
  split
  · assumption
  · rw [abs_mul, abs_of_nonneg hcap]
    refine mul_le_of_le_one_left hcap ?_
    rcases Int.sign_trichotomy shift with h | h | h <;> simp [h]

end Cap

/-- The integer part of a rational that is not negative is its floor. -/
theorem truncateRat_eq_floor {q : Rat} (hq : 0 ≤ q) : truncateRat q = ⌊q⌋ := by
  rw [truncateRat, Rat.floor_def', Int.tdiv_eq_ediv_of_nonneg (Rat.num_nonneg.mpr hq)]

/-- A shift that is cut down to whole periods is no longer than the largest shift, when it is made in
steps of at most a period. -/
theorem abs_capped_mul_le {limit period step : Rat} (hlimit : 0 ≤ limit) (hperiod : 0 < period)
    (hstep : 0 ≤ step) (hle : step ≤ period) {shift : Int}
    (hshift : |shift| ≤ truncateRat (limit / period)) : |shift * step| ≤ limit := by
  have hquotient : 0 ≤ limit / period := div_nonneg hlimit hperiod.le
  rw [truncateRat_eq_floor hquotient, Int.le_floor, Int.cast_abs] at hshift
  calc |shift * step| = |(shift : Rat)| * step := by rw [abs_mul, abs_of_nonneg hstep]
    _ ≤ limit / period * period := mul_le_mul hshift hle hstep hquotient
    _ = limit := div_mul_cancel₀ limit hperiod.ne'

/-! ## Capped alignment -/

/-- A largest shift that is accepted is a number, zero or above. -/
theorem exists_of_checkMaxShift {maxShift : Exact} (h : checkMaxShift (some maxShift) = .ok ()) :
    ∃ limit, maxShift = num limit ∧ 0 ≤ limit := by
  rw [checkMaxShift] at h
  split at h <;> rename_i hallowed
  · rw [Bool.and_eq_true, Bool.not_eq_true'] at hallowed
    obtain ⟨limit, rfl⟩ := eq_num_of_isFinite hallowed.1
    refine ⟨limit, rfl, ?_⟩
    simpa using hallowed.2
  · cases h

section Capped

variable {reference moved : Series Exact} {maxShift : Exact} {out : Alignment Exact}

/-- The largest shift, the period and the step of an exact alignment. -/
theorem Series.AlignsOn.exists_numbers {start stop period : Exact} {grid : TimeGrid Exact}
    (h : reference.AlignsOn moved (some maxShift) start stop period grid) (hr : reference.Valid)
    (hm : moved.Valid) :
    ∃ limit p step : Rat, maxShift = num limit ∧ period = num p ∧ grid.step = num step ∧
      0 ≤ limit ∧ 0 < p ∧ 0 ≤ step ∧ step ≤ p := by
  obtain ⟨limit, rfl, hlimit⟩ := exists_of_checkMaxShift h.limit
  obtain ⟨a, b, p, step, steps, rfl, rfl, rfl, rfl, hforward, hperiod, hle, heven⟩ :=
    h.exists_even hr hm
  exact ⟨limit, p, step, rfl, rfl, rfl, hlimit, hperiod, heven.step_nonneg hforward, hle⟩

/-- **A capped alignment stays within the largest shift.** A series is moved by the lag at which it
is most like the reference, or by as many steps as there are whole periods in the largest shift if
that is less. A step is at most a period, so the shift as a time is no longer than the largest shift.
The moved series has in the place `i` of the grid what the series has at the point `i + shift`, if
there is one, and else a missing sample. -/
theorem Series.align_capped (hr : reference.Valid) (hm : moved.Valid)
    (h : reference.align moved (some maxShift) = .ok out) :
    ∃ limit period step : Rat,
      maxShift = num limit ∧ out.period = num period ∧ out.step = num step ∧
      0 ≤ limit ∧ 0 < period ∧ 0 ≤ step ∧ step ≤ period ∧
      (let cap := truncateRat (limit / period)
       out.shift = if |out.correlationShift| ≤ cap then out.correlationShift
         else out.correlationShift.sign * cap) ∧
      out.shiftTime = num (out.shift * step) ∧ |out.shift * step| ≤ limit ∧
      (let resampled := moved.resample out.reference.times
       out.aligned.times = out.reference.times ∧
       ∀ i < out.reference.length, out.aligned.values[i]? = some
         (if 0 ≤ i + out.shift ∧ i + out.shift < out.reference.length then
           resampled.values.getD (i + out.shift).toNat Scalar.missing else Scalar.missing)) := by
  obtain ⟨start, stop, period, grid, hparts, hout⟩ := Series.align_eq_ok_iff.mp h
  obtain ⟨limit, period, step, rfl, rfl, hstep, hlimit, hperiod, hnonneg, hle⟩ :=
    hparts.exists_numbers hr hm
  have htimes := Series.times_alignedOn reference moved (some (num limit)) (num period) grid
  have hvalues := Series.values_alignedOn reference moved (some (num limit)) (num period) grid
  have hshift : out.shift = capShift (num period) (some (num limit)) out.correlationShift := by
    rw [hout]
    rfl
  rw [← hout] at htimes hvalues
  have hcap : truncate (num limit / num period) = truncateRat (limit / period) := by
    rw [show num limit / num period = num (limit / period) from if_neg hperiod.ne']
    rfl
  have hcapNonneg : 0 ≤ truncate (num limit / num period) := by
    have hquotient := div_nonneg hlimit hperiod.le
    rw [hcap, truncateRat_eq_floor hquotient]
    exact Int.floor_nonneg.mpr hquotient
  have hwithin := abs_capShift_le hcapNonneg out.correlationShift
  rw [← hshift, hcap] at hwithin
  have hoffset : out.shiftTime = num (out.shift * step) := by
    rw [Alignment.shiftTime, show out.step = num step by rw [hout]; exact hstep]
    exact num_mul_num _ _
  refine ⟨limit, period, step, rfl, by rw [hout]; rfl, by rw [hout]; exact hstep, hlimit, hperiod,
    hnonneg, hle, ?_, hoffset, abs_capped_mul_le hlimit hperiod hnonneg hle hwithin,
    htimes.2.trans htimes.1.symm, fun i hi => ?_⟩
  · rw [hshift, capShift_some hcapNonneg, hcap]
  · have hlength : (moved.resample out.reference.times).values.length = out.reference.length := by
      rw [Series.values_resample, List.length_map, Series.times, Stamped.length_times, Series.length]
    rw [hvalues, ← htimes.1, getElem?_shiftValues _ _ (by omega), hlength]

/-- A pulse that comes two places later, and a largest shift of one and a half periods. What the series
cover is not a multiple of the period. -/
theorem Series.align_capped_of_pulse :
    let reference : Series Exact := ⟨"a", [⟨num 0, num 1⟩, ⟨num 2, num 0⟩, ⟨num 7, num 0⟩]⟩
    let moved : Series Exact := ⟨"b", [⟨num 0, num 0⟩, ⟨num 4, num 1⟩, ⟨num 7, num 0⟩]⟩
    reference.Valid ∧ moved.Valid ∧ ∃ out, reference.align moved (some (num 3)) = .ok out ∧
      out.correlationShift = 2 ∧ out.shift = 1 ∧
      ∃ limit period step : Rat,
        num 3 = num limit ∧ out.period = num period ∧ out.step = num step ∧
        0 ≤ limit ∧ 0 < period ∧ 0 ≤ step ∧ step ≤ period ∧
        (let cap := truncateRat (limit / period)
         out.shift = if |out.correlationShift| ≤ cap then out.correlationShift
           else out.correlationShift.sign * cap) ∧
        out.shiftTime = num (out.shift * step) ∧ |out.shift * step| ≤ limit ∧
        (let resampled := moved.resample out.reference.times
         out.aligned.times = out.reference.times ∧
         ∀ i < out.reference.length, out.aligned.values[i]? = some
           (if 0 ≤ i + out.shift ∧ i + out.shift < out.reference.length then
             resampled.values.getD (i + out.shift).toNat Scalar.missing else Scalar.missing)) := by
  intro reference moved
  have hr : reference.Valid := checkIndex_eq_ok.mp rfl
  have hm : moved.Valid := checkIndex_eq_ok.mp rfl
  have hout : reference.align moved (some (num 3)) = .ok
      ⟨⟨"a", [⟨num 0, num 1⟩, ⟨num (7 / 4), num 1⟩, ⟨num (7 / 2), num 0⟩, ⟨num (21 / 4), num 0⟩,
          ⟨num 7, num 0⟩]⟩,
        ⟨"b", [⟨num 0, num 0⟩, ⟨num (7 / 4), num 0⟩, ⟨num (7 / 2), num 1⟩, ⟨num (21 / 4), num 0⟩,
          ⟨num 7, Exact.missing⟩]⟩, 1, 2, num 2, num (7 / 4)⟩ := by
    decide +kernel
  exact ⟨hr, hm, _, hout, rfl, rfl, Series.align_capped hr hm hout⟩

end Capped

end StepSignal
