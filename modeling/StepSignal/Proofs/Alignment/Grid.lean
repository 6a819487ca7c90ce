import StepSignal.Alignment
import StepSignal.Proofs.Binary64.Quotient
import StepSignal.Proofs.InEffect

/-!
# The ends of a common grid

The first and the last point of a common grid are the ends of what two series both cover. The first
one is computed, as the start plus no step, but it is not before the start: a grid with steps has a
finite span, a part of it is finite as well, and zero times a finite step is zero. So a series has a
sample in effect at both ends of the grid.
-/

namespace StepSignal

open Scalar

section Overlap

variable {α : Type} [Scalar α] [LawfulScalar α] {a b : Series α} {start stop : α}

/-- What two series both cover goes forward, between finite times, from where the second one has
begun. -/
theorem Series.Valid.overlap_eq_ok (ha : a.Valid) (hb : b.Valid)
    (h : a.overlap b = .ok (start, stop)) :
    isFinite start = true ∧ le start stop = true ∧
      ∃ first, b.times.head? = some first ∧ le first start = true := by
  unfold Series.overlap at h
  split at h
  · rename_i a₀ b₀ a₁ b₁ ha₀ hb₀ ha₁ hb₁
    have hfa₀ := ha.1 a₀ (List.mem_of_mem_head? ha₀)
    have hfb₀ := hb.1 b₀ (List.mem_of_mem_head? hb₀)
    have hna₀ := LawfulScalar.isMissing_of_isFinite _ hfa₀
    have hnb₀ := LawfulScalar.isMissing_of_isFinite _ hfb₀
    have hna₁ := Ordered.isMissing_of_mem ha (List.mem_of_getLast? ha₁)
    have hnb₁ := Ordered.isMissing_of_mem hb (List.mem_of_getLast? hb₁)
    have hnstart := isMissing_max hna₀ hnb₀
    have hnstop := isMissing_min hna₁ hnb₁
    dsimp only at h
    split at h
    · cases h
    rename_i hforward
    cases h
    refine ⟨?_, ?_, b₀, hb₀, ?_⟩
    · rcases max_cases hna₀ hnb₀ with ⟨heq, -⟩ | ⟨heq, -⟩ <;> rwa [heq]
    · rw [lt_eq hnstop hnstart, decide_eq_true_eq] at hforward
      exact (le_iff _ _).mpr ⟨hnstart, hnstop, not_lt.mp hforward⟩
    · rw [le_iff, toRat_max hna₀ hnb₀]
      exact ⟨hnb₀, hnstart, le_max_right _ _⟩
  · cases h

end Overlap

section Resample

variable {α : Type} [Scalar α] (s : Series α) (points : List α)

theorem Series.samples_resample : (s.resample points).samples
    = points.map fun t => ⟨t, (s.valueAt t).getD missing⟩ := by
  rw [Series.resample, Series.valuesAt_eq_map, List.zipWith_map_right, List.zipWith_self]

@[simp] theorem Series.times_resample : (s.resample points).times = points := by
  rw [Series.times, Stamped.times, samples_resample, List.map_map]
  exact List.map_id' points

/-- A resampled series has the values in effect at the points of the grid. -/
theorem Series.values_resample :
    (s.resample points).values = points.map fun t => (s.valueAt t).getD missing := by
  rw [Series.values, samples_resample, List.map_map]
  rfl

end Resample

section Samples

variable {α : Type} [Scalar α] [LawfulScalar α] {s : Series α}

/-- Once it has begun, a series has one of its samples in effect. -/
theorem Series.Valid.exists_valueAt (hs : s.Valid) {first t : α}
    (hfirst : s.times.head? = some first) (h : le first t = true) : ∃ v ∈ s.values, s.valueAt t = some v := by
  obtain ⟨row, hrow, rfl⟩ := List.mem_map.mp (List.mem_of_mem_head? hfirst)
  have hne : (s.samples.filter fun row => le row.time t) ≠ [] :=
    List.ne_nil_of_mem (List.mem_filter.mpr ⟨hrow, h⟩)
  refine ⟨_, List.mem_map_of_mem (List.mem_of_mem_filter (List.getLast_mem hne)), ?_⟩
  rw [hs.valueAt_eq, inEffect, List.getLast?_eq_some_getLast hne, Option.map_some]

end Samples

section Spanning

open Binary64

variable {start stop period : Float} {grid : TimeGrid Float}

/-- The first point of a grid with steps is not before its start. -/
theorem le_start_add_zero {steps : Nat} (hstart : isFinite start = true)
    (h : Scalar.ceil? ((stop - start) / period) = some (steps + 1)) :
    le start (start + Scalar.ofInt 0 * ((stop - start) / Scalar.ofInt (steps + 1 : Nat)))
      = true := by
  have hspan : (stop - start).isFinite = true := isFinite_of_isFinite_div (isFinite_of_ceil?_eq h)
  have hstep : ((stop - start) / Float.ofInt (steps + 1 : Nat)).isFinite = true :=
    isFinite_div hspan (one_le_ofNat (Nat.succ_pos steps))
  exact le_iff_scalar.mp (le_add_zero_mul hstart hstep)

/-- The first and the last point of a grid are not before its start. -/
theorem TimeGrid.exists_ends (hstart : isFinite start = true) (hforward : le start stop = true)
    (h : TimeGrid.spanning start stop period = .ok grid) :
    ∃ first last, grid.points.head? = some first ∧ grid.points.getLast? = some last ∧
      le start first = true ∧ le start last = true := by
  have hself : le start start = true :=
    (le_iff _ _).mpr ⟨isNaN_of_isFinite hstart, isNaN_of_isFinite hstart, le_rfl⟩
  unfold TimeGrid.spanning at h
  split at h
  · cases h
  · cases h
    exact ⟨start, start, rfl, rfl, hself, hself⟩
  · rename_i steps hsteps hceil
    cases h
    obtain ⟨k, rfl⟩ := Nat.exists_eq_succ_of_ne_zero hsteps
    refine ⟨_, stop, ?_, List.getLast?_concat, le_start_add_zero hstart hceil, hforward⟩
    simp [List.range_succ_eq_map]

end Spanning

end StepSignal
