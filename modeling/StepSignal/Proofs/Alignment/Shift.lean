import StepSignal.Proofs.Alignment.Parts

/-!
# Where an alignment leaves the samples

On a grid of `n` points the lags go from `-n` to `n - 1`. At the first of them nothing overlaps: its
correlation is an empty sum, and it is the best one when the correlations at all other lags are so
far below it that none counts as a tie. Then the series is moved off the grid, and no sample is left
of it. At every other lag a sample from one of the ends of the grid stays on it.
-/

namespace StepSignal

open Scalar

/-! ## The first lag -/

section FirstLag

variable {α : Type} [Scalar α]

/-- Of the correlations at all lags only the one at the first lag reaches the threshold. -/
def OnlyFirstReaches (cs : List α) : Prop :=
  ∃ first rest, cs = first :: rest ∧ le (tieThreshold cs) first = true ∧
    ∀ c ∈ rest, le (tieThreshold cs) c = false

variable [Correlates α] {a r : List α}

/-- The best lag is one of the lags. -/
theorem bestLag_mem_lags (hne : a ≠ []) (r : List α) : bestLag a r ∈ lags a.length := by
  have hpos := List.length_pos_iff.mpr hne
  rw [mem_lags]
  rcases bestLag_cases a r with ⟨hzero, -⟩ | ⟨⟨j, c, hc, -, hbest⟩, -⟩
  · omega
  · have hlt := (List.getElem?_eq_some_iff.mp hc).1
    rw [length_correlations] at hlt
    omega

/-- The best lag is the first one when no other one reaches the threshold. -/
theorem bestLag_eq_neg_length_iff (hne : a ≠ []) (r : List α) :
    bestLag a r = -a.length ↔ OnlyFirstReaches (correlations a r) := by
  have hpos := List.length_pos_iff.mpr hne
  have hlength := length_correlations a r
  have hcases := bestLag_cases a r
  generalize correlations a r = cs at *
  obtain ⟨first, rest, rfl⟩ := List.exists_cons_of_length_pos (show 0 < cs.length by omega)
  have hrest : ∀ {i : Nat} {c : α}, (first :: rest)[i + 1]? = some c → c ∈ rest :=
    fun h => List.mem_of_getElem? (by rwa [List.getElem?_cons_succ] at h)
  constructor
  · intro hbest
    obtain ⟨hzero, -⟩ | ⟨⟨j, c, hc, hreach, hj⟩, hsmallest⟩ := hcases
    · omega
    obtain rfl : j = 0 := by omega
    obtain rfl : first = c := Option.some.inj hc
    refine ⟨first, rest, rfl, hreach, fun c hc => Bool.eq_false_iff.mpr fun hreach => ?_⟩
    -- every other lag is smaller
    obtain ⟨i, hi⟩ := List.mem_iff_getElem?.mp hc
    have hlt := (List.getElem?_eq_some_iff.mp hi).1
    have := hsmallest (i + 1) c hi hreach
    rw [List.length_cons] at hlength
    omega
  · rintro ⟨_, _, heq, hreach, hnone⟩
    cases heq
    obtain ⟨-, hlow⟩ | ⟨⟨j, c, hc, hreach', hj⟩, -⟩ := hcases
    · rw [hlow first List.mem_cons_self] at hreach
      cases hreach
    · cases j with
      | zero => omega
      | succ i =>
        rw [hnone c (hrest hc)] at hreach'
        cases hreach'

/-- The first correlation of sequences that are correlated lag by lag is an empty sum. -/
theorem head?_correlations (hlen : r.length ≤ a.length) (hne : a ≠ [])
    (hshort : a.length ≤ separateLimit) : (correlations a r).head? = some sumUnit := by
  have hpos := List.length_pos_iff.mpr hne
  have hfirst := getElem?_lags (n := a.length) (j := 0) (by omega)
  have hempty : correlationAt a r (((0 : Nat) : Int) - a.length) = sumUnit := by
    have hdrop : r.drop (-(((0 : Nat) : Int) - a.length)).toNat = [] :=
      List.drop_eq_nil_of_le (by omega)
    rw [correlationAt, hdrop]
    cases a.drop (((0 : Nat) : Int) - a.length).toNat <;> rfl
  rw [correlations, if_pos hshort, List.head?_eq_getElem?, List.getElem?_map, hfirst,
    Option.map_some, hempty]

/-- If only an empty sum reaches the threshold, the other correlations are below zero. -/
theorem OnlyFirstReaches.lt_zero {cs : List Float} (h : OnlyFirstReaches cs)
    (hempty : cs.head? = some sumUnit) : ∀ c ∈ cs.tail, le zero c = false := by
  obtain ⟨first, rest, rfl, hreach, hnone⟩ := h
  obtain rfl : first = sumUnit := Option.some.inj hempty
  have hzero : le (sumUnit : Float) zero = true := by decide +kernel
  refine fun c hc => Bool.eq_false_iff.mpr fun hle => ?_
  have hreach' := le_of_le_of_le (le_of_le_of_le hreach hzero) hle
  rw [hnone c hc] at hreach'
  cases hreach'

end FirstLag

/-! ## Moving to the ends of the grid -/

section Moving

variable {α : Type} [Scalar α] {values : List α}

/-- Moving by as many places as there are leaves nothing. -/
theorem shiftValues_neg_length (values : List α) :
    shiftValues values (-values.length) = List.replicate values.length missing := by
  refine List.ext_getElem? fun i => ?_
  by_cases hi : i < values.length
  · rw [getElem?_shiftValues _ _ hi, if_neg (by omega), List.getElem?_replicate, if_pos hi]
  · rw [List.getElem?_eq_none (by simpa using hi), List.getElem?_eq_none (by simpa using hi)]

/-- A value that is moved to one of the places is still there. -/
theorem mem_shiftValues {k : Nat} {v : α} {shift : Int} (hv : values[k]? = some v)
    (hlo : shift ≤ k) (hhi : k - shift < values.length) : v ∈ shiftValues values shift := by
  have hk := (List.getElem?_eq_some_iff.mp hv).1
  obtain ⟨i, hi⟩ := Int.eq_ofNat_of_zero_le (sub_nonneg.mpr hlo)
  have hplace : (i : Int) + shift = k := by omega
  refine List.mem_of_getElem? (i := i) ?_
  rw [getElem?_shiftValues _ _ (by omega), hplace, if_pos (by omega), Int.toNat_natCast,
    List.getD_eq_getElem?_getD, hv, Option.getD_some]

/-- Moving by fewer places keeps the first or the last value. -/
theorem head_or_getLast_mem_shiftValues {first last : α} (hfirst : values.head? = some first)
    (hlast : values.getLast? = some last) {shift : Int} (hshift : |shift| < values.length) :
    first ∈ shiftValues values shift ∨ last ∈ shiftValues values shift := by
  rw [List.head?_eq_getElem?] at hfirst
  rw [List.getLast?_eq_getElem?] at hlast
  rw [abs_lt] at hshift
  rcases Int.le_total 0 shift with hpos | hneg
  · exact .inr (mem_shiftValues hlast (by omega) (by omega))
  · exact .inl (mem_shiftValues hfirst (by omega) (by omega))

end Moving

/-! ## Alignment -/

section Align

variable {reference moved : Series Float} {out : Alignment Float}

/-- What an alignment is made of. -/
theorem Series.align_eq_ok {maxShift : Option Float}
    (h : reference.align moved maxShift = .ok out) :
    moved.hasMissing = false ∧ ∃ start stop grid, reference.overlap moved = .ok (start, stop) ∧
      TimeGrid.spanning start stop out.period = .ok grid ∧
      out.reference = reference.resample grid.points ∧
      out.correlationShift = bestLag (moved.resample grid.points).values out.reference.values ∧
      out.shift = capShift out.period maxShift out.correlationShift ∧
      out.aligned = (moved.resample grid.points).withValues
        (shiftValues (moved.resample grid.points).values out.shift) := by
  obtain ⟨start, stop, period, grid, hparts, rfl⟩ := Series.align_eq_ok_iff.mp h
  exact ⟨hparts.movedComplete, start, stop, grid, hparts.overlap, hparts.grid, rfl, rfl, rfl, rfl⟩

/-- Both ends of the grid of an alignment have a sample of the moved series in effect. -/
theorem Series.exists_samples_at_ends (hr : reference.Valid) (hm : moved.Valid)
    {start stop period : Float} {grid : TimeGrid Float}
    (hoverlap : reference.overlap moved = .ok (start, stop))
    (hgrid : TimeGrid.spanning start stop period = .ok grid) :
    ∃ first ∈ moved.values, ∃ last ∈ moved.values,
      (moved.resample grid.points).values.head? = some first ∧
      (moved.resample grid.points).values.getLast? = some last := by
  obtain ⟨hstart, hforward, begun, hbegun, hle⟩ := Series.Valid.overlap_eq_ok hr hm hoverlap
  obtain ⟨p, q, hp, hq, hstartp, hstartq⟩ := TimeGrid.exists_ends hstart hforward hgrid
  obtain ⟨first, hfirst, hat⟩ := hm.exists_valueAt hbegun (le_of_le_of_le hle hstartp)
  obtain ⟨last, hlast, hat'⟩ := hm.exists_valueAt hbegun (le_of_le_of_le hle hstartq)
  refine ⟨first, hfirst, last, hlast, ?_, ?_⟩
  · rw [Series.values_resample, List.head?_map, hp, Option.map_some, hat, Option.getD_some]
  · rw [Series.values_resample, List.getLast?_map, hq, Option.map_some, hat', Option.getD_some]

/-- **Where an alignment leaves the samples.** Without a largest shift a series is moved by fewer
places than the grid has points, and some sample of it is left, unless the lag at which nothing
overlaps is the only one whose correlation reaches the threshold. Then it is moved by as many places
as there are points, and nothing of it is left. On a short grid this takes correlations below zero at
all lags at which the series overlap. -/
theorem Series.align_shift (hr : reference.Valid) (hm : moved.Valid)
    (h : reference.align moved none = .ok out) :
    let n : Int := out.reference.length
    let cs := correlations (moved.resample out.reference.times).values out.reference.values
    out.aligned.length = n ∧ out.shift = out.correlationShift ∧
      -n ≤ out.correlationShift ∧ out.correlationShift ≤ n - 1 ∧
      (out.correlationShift = -n ↔ OnlyFirstReaches cs) ∧
      (out.correlationShift = -n →
        (∀ v ∈ out.aligned.values, isMissing v = true) ∧
        (n ≤ separateLimit → ∀ c ∈ cs.tail, le zero c = false)) ∧
      (out.correlationShift ≠ -n → |out.correlationShift| ≤ n - 1 ∧
        ∃ v ∈ out.aligned.values, v ∈ moved.values ∧ isMissing v = false) := by
  intro n cs
  obtain ⟨hcomplete, start, stop, grid, hoverlap, hgrid, href, hcorr, hshift, haligned⟩ :=
    Series.align_eq_ok h
  obtain ⟨first, hfirst, last, hlast, hhead, hgetLast⟩ :=
    Series.exists_samples_at_ends hr hm hoverlap hgrid
  have hcs : cs = correlations (moved.resample grid.points).values out.reference.values := by
    show correlations (moved.resample out.reference.times).values out.reference.values = _
    rw [href, Series.times_resample]
  have hlength : (moved.resample grid.points).values.length = out.reference.values.length := by
    rw [href, Series.values_resample, Series.values_resample, List.length_map, List.length_map]
  have hn : n = ((moved.resample grid.points).values.length : Int) := by
    rw [hlength, Series.values, List.length_map]
    rfl
  have hvalues : out.aligned.values
      = shiftValues (moved.resample grid.points).values out.correlationShift := by
    rw [haligned, hshift]
    exact Series.values_withValues (by rw [length_shiftValues, Series.values, List.length_map])
  generalize (moved.resample grid.points).values = vs at *
  have hne : vs ≠ [] := fun hnil => by simp [hnil] at hhead
  have hmem := bestLag_mem_lags hne out.reference.values
  rw [mem_lags, ← hcorr, ← hn] at hmem
  have hfirstLag : out.correlationShift = -n ↔ OnlyFirstReaches cs := by
    rw [hcs, hcorr, hn]
    exact bestLag_eq_neg_length_iff hne _
  refine ⟨?_, hshift, hmem.1, by omega, hfirstLag, fun hall => ⟨?_, fun hshort => ?_⟩,
    fun hsome => ?_⟩
  · have hcount : out.aligned.length = out.aligned.values.length := (List.length_map _).symm
    rw [hcount, hvalues, length_shiftValues, hn]
  · rw [hvalues, hall, hn, shiftValues_neg_length]
    intro v hv
    rw [List.eq_of_mem_replicate hv]
    rfl
  · refine (hfirstLag.mp hall).lt_zero ?_
    rw [hcs]
    exact head?_correlations hlength.ge hne (by omega)
  · have hwithin : |out.correlationShift| < n := abs_lt.mpr ⟨by omega, hmem.2⟩
    have hsample : ∀ v ∈ moved.values, isMissing v = false := fun v hv =>
      Bool.eq_false_iff.mpr fun hmissing => by
        rw [Series.hasMissing, List.any_eq_false] at hcomplete
        exact hcomplete v hv hmissing
    refine ⟨Int.le_sub_one_of_lt hwithin, ?_⟩
    rw [hvalues]
    rcases head_or_getLast_mem_shiftValues hhead hgetLast (hn ▸ hwithin) with hmem | hmem
    · exact ⟨first, hmem, hfirst, hsample first hfirst⟩
    · exact ⟨last, hmem, hlast, hsample last hlast⟩

/-- A pulse that comes one place later. -/
theorem Series.align_shift_of_pulse :
    let reference : Series Float := ⟨"a", [⟨0, 0⟩, ⟨1, 1⟩, ⟨2, 0⟩]⟩
    let moved : Series Float := ⟨"b", [⟨0, 0⟩, ⟨1, 0⟩, ⟨2, 1⟩]⟩
    let out : Alignment Float :=
      ⟨reference, ⟨"b", [⟨0, 0⟩, ⟨1, 1⟩, ⟨2, missing⟩]⟩, 1, 1, 1, 1⟩
    reference.Valid ∧ moved.Valid ∧ reference.align moved none = .ok out ∧
      |out.correlationShift| ≤ 3 - 1 ∧
      ∃ v ∈ out.aligned.values, v ∈ moved.values ∧ isMissing v = false := by
  intro reference moved out
  have hr : reference.Valid := checkIndex_eq_ok.mp rfl
  have hm : moved.Valid := checkIndex_eq_ok.mp rfl
  have hout : reference.align moved none = .ok out := by decide +kernel
  obtain ⟨-, -, -, -, -, -, hsome⟩ := Series.align_shift hr hm hout
  exact ⟨hr, hm, hout, hsome (by decide)⟩

/-- Two series of opposite signs are most alike where they do not overlap, and the moved one leaves
the grid. -/
theorem Series.align_leaves_grid :
    let reference : Series Float := ⟨"a", [⟨0, -1⟩, ⟨1, -1⟩, ⟨2, -1⟩]⟩
    let moved : Series Float := ⟨"b", [⟨0, 1⟩, ⟨1, 1⟩, ⟨2, 1⟩]⟩
    let out : Alignment Float :=
      ⟨reference, ⟨"b", [⟨0, missing⟩, ⟨1, missing⟩, ⟨2, missing⟩]⟩, -3, -3, 1, 1⟩
    reference.Valid ∧ moved.Valid ∧ reference.align moved none = .ok out ∧
      ¬ |out.correlationShift| ≤ out.reference.length - 1 ∧
      ¬ ∃ v ∈ out.aligned.values, v ∈ moved.values ∧ isMissing v = false := by
  intro reference moved out
  have hr : reference.Valid := checkIndex_eq_ok.mp rfl
  have hm : moved.Valid := checkIndex_eq_ok.mp rfl
  have hout : reference.align moved none = .ok out := by decide +kernel
  have hmissing : ∀ v ∈ out.aligned.values, isMissing v = true := by decide +kernel
  refine ⟨hr, hm, hout, by decide, ?_⟩
  rintro ⟨v, hv, -, hsample⟩
  rw [hmissing v hv] at hsample
  cases hsample

end Align

end StepSignal
