import Mathlib.Data.Rat.Floor
import StepSignal.Proofs.Alignment.Parts
import StepSignal.Proofs.Exact

/-!
# Even grids

For exact scalars the grid over a span consists of the times

    start + k * step        for k = 0, ..., steps

with as many steps as periods fit into the span, rounded up. The step divides the span evenly, and it
is at most the period. So whatever the span, a period that begins in it has a point of the grid.
-/

namespace StepSignal

open Exact Scalar

/-- The times that are reached from `start` in up to `steps` equal steps. -/
def evenTimes (start step : Rat) (steps : Nat) : List Rat :=
  (List.range (steps + 1)).map fun (k : Nat) => start + k * step

/-- Equal steps that lead forward from `start` to `stop`, none if the two are the same. -/
structure SpansEvenly (start stop step : Rat) (steps : Nat) : Prop where
  ends : start + steps * step = stop
  forward : start < stop → 0 < step
  single : start = stop → steps = 0 ∧ step = 0

section EvenTimes

variable {start stop step : Rat} {steps : Nat}

/-- One step more leads to one time more. -/
theorem evenTimes_succ : evenTimes start step (steps + 1)
    = evenTimes start step steps ++ [start + (steps + 1 : Nat) * step] := by
  rw [evenTimes, List.range_succ, List.map_append, evenTimes, List.map_singleton]

theorem mem_evenTimes {t : Rat} :
    t ∈ evenTimes start step steps ↔ ∃ k ≤ steps, start + (k : Nat) * step = t := by
  simp only [evenTimes, List.mem_map, List.mem_range, Nat.lt_succ_iff]

/-- Steps forward give increasing times. -/
theorem ordered_evenTimes (h : 0 < steps → 0 < step) :
    Ordered (exact (evenTimes start step steps)) := by
  rw [ordered_iff, exact, evenTimes, List.map_map, List.pairwise_map]
  constructor
  · intro t ht
    obtain ⟨k, -, rfl⟩ := List.mem_map.mp ht
    exact isFinite_num _
  · refine List.pairwise_lt_range.imp_of_mem fun {i j} _ hj hij => ?_
    have hstep : 0 < step := h (by have := List.mem_range.mp hj; omega)
    have hplaces : (i : Rat) * step < j * step :=
      mul_lt_mul_of_pos_right (Nat.cast_lt.mpr hij) hstep
    show start + (i : Rat) * step < start + j * step
    linarith

namespace SpansEvenly

variable (h : SpansEvenly start stop step steps)
include h

theorem step_nonneg (hle : start ≤ stop) : 0 ≤ step := by
  rcases hle.lt_or_eq with hlt | heq
  · exact (h.forward hlt).le
  · exact (h.single heq).2.ge

theorem step_pos (hle : start ≤ stop) (hpos : 0 < steps) : 0 < step := by
  rcases hle.lt_or_eq with hlt | heq
  · exact h.forward hlt
  · have := (h.single heq).1
    omega

/-- All times are from the start to the stop. -/
theorem mem_bounds (hle : start ≤ stop) {t : Rat} (ht : t ∈ evenTimes start step steps) :
    start ≤ t ∧ t ≤ stop := by
  obtain ⟨k, hk, rfl⟩ := mem_evenTimes.mp ht
  have hstep := h.step_nonneg hle
  have hkstep : (k : Rat) * step ≤ steps * step :=
    mul_le_mul_of_nonneg_right (Nat.cast_le.mpr hk) hstep
  have hnonneg : 0 ≤ (k : Rat) * step := mul_nonneg (Nat.cast_nonneg k) hstep
  constructor
  · linarith
  · linarith [h.ends]

/-- A time between the start and the stop is followed by one of the even times within a step. -/
theorem exists_within {t period : Rat} (hlo : start ≤ t) (hhi : t ≤ stop) (hpos : 0 < period)
    (hperiod : step ≤ period) :
    ∃ k ≤ steps, t ≤ start + (k : Nat) * step ∧ start + (k : Nat) * step < t + period := by
  have hreached : ∃ k : Nat, t ≤ start + k * step := ⟨steps, hhi.trans h.ends.ge⟩
  -- the first of the times that is not before `t`
  set k := Nat.find hreached with hk
  have hspec : t ≤ start + (k : Nat) * step := Nat.find_spec hreached
  refine ⟨k, Nat.find_min' hreached (hhi.trans h.ends.ge), hspec, ?_⟩
  rcases Nat.eq_zero_or_pos k with hzero | hkpos
  · rw [hzero, Nat.cast_zero, zero_mul, add_zero]
    linarith
  · have hbefore : start + ((k - 1 : Nat) : Rat) * step < t :=
      not_le.mp (Nat.find_min hreached (by omega))
    rw [Nat.cast_pred hkpos, sub_mul, one_mul] at hbefore
    linarith

end SpansEvenly

end EvenTimes

/-! ## Spanning -/

variable {start stop period : Rat}

/-- The grid over a span that goes forward exists. It is even, and its step is at most the period. -/
theorem TimeGrid.exists_even (hperiod : 0 < period) (hforward : start ≤ stop) :
    ∃ (step : Rat) (steps : Nat), TimeGrid.spanning (num start) (num stop) (num period)
        = .ok ⟨num step, exact (evenTimes start step steps)⟩ ∧
      SpansEvenly start stop step steps ∧ step ≤ period := by
  have hceil : Scalar.ceil? ((num stop - num start) / num period)
      = some ((stop - start) / period).ceil.toNat := by
    rw [num_sub_num, num_div_num _ hperiod.ne']
    rfl
  -- there are at least as many steps as periods, and none in a span of no length
  have hcount : (stop - start) / period ≤ ((stop - start) / period).ceil.toNat := by
    refine Rat.le_ceil.trans ?_
    exact_mod_cast Int.self_le_toNat _
  have hsingle : start = stop → ((stop - start) / period).ceil.toNat = 0 := by
    intro heq
    rw [heq, sub_self, zero_div]
    rfl
  rw [TimeGrid.spanning, hceil]
  generalize ((stop - start) / period).ceil.toNat = steps at *
  rw [div_le_iff₀ hperiod] at hcount
  cases steps with
  | zero =>
    have heq : start = stop := by
      rw [Nat.cast_zero, zero_mul] at hcount
      linarith
    refine ⟨0, 0, by simp [evenTimes, exact], ⟨by simp [heq], fun hlt => ?_, fun _ => ⟨rfl, rfl⟩⟩,
      hperiod.le⟩
    exact absurd heq hlt.ne
  | succ n =>
    have hpos : (0 : Rat) < (n + 1 : Nat) := Nat.cast_pos.mpr n.succ_pos
    have hends : start + (n + 1 : Nat) * ((stop - start) / (n + 1 : Nat)) = stop := by
      rw [mul_div_cancel₀ _ hpos.ne', add_sub_cancel]
    refine ⟨(stop - start) / (n + 1 : Nat), n + 1, ?_, ⟨hends, fun hlt => ?_, fun heq => ?_⟩, ?_⟩
    · have hstep : (num stop - num start) / num (n + 1 : Nat)
          = num ((stop - start) / (n + 1 : Nat)) := by
        rw [num_sub_num, num_div_num _ hpos.ne']
      rw [evenTimes_succ, hends]
      simp only [ofInt_eq, Int.cast_natCast, hstep, num_mul_num, num_add_num, exact, evenTimes,
        List.map_append, List.map_map, List.map_singleton, Function.comp_def]
    · exact div_pos (sub_pos.mpr hlt) hpos
    · exact absurd (hsingle heq) n.succ_ne_zero
    · rwa [div_le_iff₀ hpos, mul_comm]

/-! ## Alignment -/

section Align

variable {reference moved : Series Exact} {maxShift : Option Exact}

/-- What two exact series both cover goes forward, and their smallest distance is above zero. -/
theorem Series.Valid.exists_span {referenceGap movedGap start stop : Exact} (hr : reference.Valid)
    (hm : moved.Valid) (hreferenceGap : reference.smallestGap = .ok referenceGap)
    (hmovedGap : moved.smallestGap = .ok movedGap)
    (hoverlap : reference.overlap moved = .ok (start, stop)) :
    ∃ a b p : Rat, start = num a ∧ stop = num b ∧ Scalar.min referenceGap movedGap = num p ∧
      a ≤ b ∧ 0 < p := by
  obtain ⟨t, u, ht, hu, htu, hperiod⟩ := hr.exists_period hm hreferenceGap hmovedGap
  obtain ⟨t, rfl⟩ := eq_num_of_isFinite ht
  obtain ⟨u, rfl⟩ := eq_num_of_isFinite hu
  obtain ⟨-, hforward, -⟩ := Series.Valid.overlap_eq_ok hr hm hoverlap
  obtain ⟨hstart, hstop, hforward⟩ := (le_iff _ _).mp hforward
  obtain ⟨a, rfl⟩ := eq_num_of_isMissing hstart
  obtain ⟨b, rfl⟩ := eq_num_of_isMissing hstop
  exact ⟨a, b, u - t, rfl, rfl, hperiod, hforward, sub_pos.mpr htu⟩

/-- Complete exact series of two samples or more that cover a common time are aligned. -/
theorem Series.Valid.exists_alignsOn {start stop : Exact} (hr : reference.Valid) (hm : moved.Valid)
    (hlimit : checkMaxShift maxShift = .ok ()) (hrlength : 2 ≤ reference.length)
    (hmlength : 2 ≤ moved.length) (hrcomplete : reference.hasMissing = false)
    (hmcomplete : moved.hasMissing = false) (hoverlap : reference.overlap moved = .ok (start, stop)) :
    ∃ period grid, reference.AlignsOn moved maxShift start stop period grid := by
  obtain ⟨referenceGap, hreferenceGap⟩ := Series.exists_smallestGap hrlength
  obtain ⟨movedGap, hmovedGap⟩ := Series.exists_smallestGap hmlength
  obtain ⟨a, b, p, rfl, rfl, hp, hforward, hperiod⟩ :=
    hr.exists_span hm hreferenceGap hmovedGap hoverlap
  obtain ⟨step, steps, hgrid, -⟩ := TimeGrid.exists_even hperiod hforward
  exact ⟨num p, _, hlimit, hrcomplete, hmcomplete,
    ⟨referenceGap, movedGap, hreferenceGap, hmovedGap, hp⟩, hoverlap, hgrid⟩

/-- What an alignment of exact series is made of: a period above zero, and even times over the overlap
with a step of at most the period. -/
theorem Series.AlignsOn.exists_even {start stop period : Exact} {grid : TimeGrid Exact}
    (h : reference.AlignsOn moved maxShift start stop period grid) (hr : reference.Valid)
    (hm : moved.Valid) :
    ∃ (a b p step : Rat) (steps : Nat), start = num a ∧ stop = num b ∧ period = num p ∧
      grid = ⟨num step, exact (evenTimes a step steps)⟩ ∧ a ≤ b ∧ 0 < p ∧ step ≤ p ∧
      SpansEvenly a b step steps := by
  obtain ⟨referenceGap, movedGap, hreferenceGap, hmovedGap, rfl⟩ := h.gaps
  obtain ⟨a, b, p, rfl, rfl, hp, hforward, hperiod⟩ :=
    hr.exists_span hm hreferenceGap hmovedGap h.overlap
  obtain ⟨step, steps, hgrid, heven, hstep⟩ := TimeGrid.exists_even hperiod hforward
  rw [← hp] at hgrid
  obtain rfl := Except.ok.inj (hgrid.symm.trans h.grid)
  exact ⟨a, b, p, step, steps, rfl, rfl, hp, rfl, hforward, hperiod, hstep, heven⟩

end Align

end StepSignal
