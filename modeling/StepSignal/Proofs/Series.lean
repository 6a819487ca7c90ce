import StepSignal.Proofs.Index
import StepSignal.Series

/-!
# Parts of series

The rows of a series from one place to another are a series again, with the same part of its times
and of its values. A series that is complete has a number at every time.
-/

namespace StepSignal
namespace Series

section Rows

variable {α : Type} {s t : Series α} {start stop : Nat}

/-- The rows of a series from `start` up to and without `stop`. -/
def rows (start stop : Nat) (s : Series α) : Series α :=
  { s with samples := Stamped.extract s.samples start stop }

theorem slice_eq_rows (h : start ≤ stop ∧ stop ≤ s.length) :
    s.slice start stop = .ok (s.rows start stop) :=
  if_pos h

theorem times_rows : (s.rows start stop).times = (s.times.take stop).drop start :=
  Stamped.times_extract s.samples start stop

theorem values_rows : (s.rows start stop).values = (s.values.take stop).drop start := by
  simp only [values, rows, Stamped.extract, List.map_drop, List.map_take]

theorem length_eq_of_times (h : s.times = t.times) : s.length = t.length := by
  rw [← length_times, h, length_times]

variable [Scalar α]

theorem Valid.rows [LawfulScalar α] (hs : s.Valid) : (s.rows start stop).Valid := by
  unfold Valid
  rw [times_rows]
  exact Ordered.sublist hs ((List.drop_sublist _ _).trans (List.take_sublist _ _))

theorem isMissing_of_mem_values (h : s.hasMissing = false) {v : α} (hv : v ∈ s.values) :
    Scalar.isMissing v = false := by
  simpa using List.any_eq_false.mp h v hv

end Rows

section Parts

variable {α : Type} {name : String} {index values : List α}

theorem times_zipWith (hlength : index.length = values.length) :
    (⟨name, index.zipWith Stamped.mk values⟩ : Series α).times = index := by
  rw [times, Stamped.times, List.map_zipWith, ← List.map_uncurry_zip_eq_zipWith]
  exact List.map_fst_zip hlength.le

theorem values_zipWith (hlength : index.length = values.length) :
    (⟨name, index.zipWith Stamped.mk values⟩ : Series α).values = values := by
  rw [Series.values, List.map_zipWith, ← List.map_uncurry_zip_eq_zipWith]
  exact List.map_snd_zip hlength.ge

variable [Scalar α]

/-- Parts of one length make up a series when the times are an index, and what is wrong with the
times is reported when they are not. -/
theorem ofValues_eq (hlength : index.length = values.length) :
    ofValues name index values
      = (checkIndex index).map fun _ => ⟨name, index.zipWith Stamped.mk values⟩ := by
  rw [ofValues, if_pos hlength]
  rfl

/-- Times that are an index and as many values make up a series. -/
theorem exists_ofValues (name : String) (hlength : index.length = values.length)
    (hindex : Ordered index) : ∃ s, ofValues name index values = .ok s ∧ s.name = name ∧
      s.times = index ∧ s.values = values := by
  refine ⟨_, ?_, rfl, times_zipWith hlength, values_zipWith hlength⟩
  rw [ofValues_eq hlength, checkIndex_eq_ok.mpr hindex]
  rfl

end Parts

end Series
end StepSignal
