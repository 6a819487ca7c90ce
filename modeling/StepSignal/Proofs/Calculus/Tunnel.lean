import StepSignal.Calculus.Extrema
import StepSignal.Proofs.Calculus.Mean

/-!
# The tunnel of a signal

The local extrema of a series are some of its samples. A complete series has one of either kind, for
whoever walks from the first sample to a neighbour that is more extreme, as long as there is one, ends
at an extremum. The middle of the tunnel is taken between the means of both kinds. Two extrema of a
kind have a mean, which is between the extremes of the series; a single one spans no time and has
none, so that a tunnel with a single crest or a single trough has no middle.
-/

namespace StepSignal

open Exact

/-! ## Local extrema -/

section Extrema

variable {α : Type} [Scalar α] {kind : Extremum} {before : α}

theorem extremaAfter_sublist (samples : List (Stamped α α)) :
    (extremaAfter kind before samples).Sublist samples := by
  induction samples generalizing before with
  | nil => exact .slnil
  | cons s rest ih =>
    rw [extremaAfter]
    split
    · exact ih.cons_cons s
    · exact ih.cons s

theorem Series.localExtrema_sublist (s : Series α) (kind : Extremum) :
    (s.localExtrema kind).samples.Sublist s.samples := by
  unfold Series.localExtrema
  split
  · exact .refl _
  · next first rest hsamples =>
    rw [hsamples]
    exact extremaAfter_sublist _

variable [LawfulScalar α]

/-- Of two numbers one is as extreme as the other. -/
theorem Extremum.holds_total (kind : Extremum) {a b : α} (ha : Scalar.isMissing a = false)
    (hb : Scalar.isMissing b = false) : kind.holds a b = true ∨ kind.holds b a = true := by
  simp only [Extremum.holds]
  cases kind with
  | minimum =>
    simp only [Scalar.le_eq ha hb, Scalar.le_eq hb ha, decide_eq_true_eq]
    exact le_total _ _
  | maximum =>
    simp only [Scalar.le_eq ha hb, Scalar.le_eq hb ha, decide_eq_true_eq]
    exact le_total _ _

/-- From a sample as extreme as the one before it, some sample is as extreme as both neighbours. -/
theorem extremaAfter_ne_nil {s : Stamped α α} {rest : List (Stamped α α)}
    (hnumber : ∀ row ∈ s :: rest, Scalar.isMissing row.value = false)
    (hbefore : kind.holds s.value before = true) : extremaAfter kind before (s :: rest) ≠ [] := by
  induction rest generalizing before s with
  | nil =>
    have hs := hnumber s List.mem_cons_self
    have hself : kind.holds s.value s.value = true := or_self_iff.mp (kind.holds_total hs hs)
    simp [extremaAfter, hbefore, hself]
  | cons t rest ih =>
    rw [List.forall_mem_cons] at hnumber
    by_cases hafter : kind.holds s.value t.value = true
    · simp [extremaAfter, hbefore, hafter]
    · have ht := hnumber.2 t List.mem_cons_self
      have hnext := (kind.holds_total hnumber.1 ht).resolve_left hafter
      have hskip : extremaAfter kind before (s :: t :: rest)
          = extremaAfter kind s.value (t :: rest) := by
        rw [extremaAfter]
        simp [hafter]
      rw [hskip]
      exact ih hnumber.2 hnext

namespace Series

variable {s : Series α}

theorem Valid.localExtrema (hs : s.Valid) (kind : Extremum) : (s.localExtrema kind).Valid :=
  Ordered.sublist hs ((s.localExtrema_sublist kind).map _)

omit [LawfulScalar α] in
theorem hasMissing_localExtrema (hcomplete : s.hasMissing = false) (kind : Extremum) :
    (s.localExtrema kind).hasMissing = false := by
  apply List.any_eq_false.mpr
  intro v hv
  have hmem : v ∈ s.values := ((s.localExtrema_sublist kind).map _).mem hv
  simp [isMissing_of_mem_values hcomplete hmem]

/-- A complete series with a sample has a local extremum of either kind. -/
theorem length_localExtrema_pos (hcomplete : s.hasMissing = false) (hsome : 0 < s.length)
    (kind : Extremum) : 0 < (s.localExtrema kind).length := by
  obtain ⟨name, samples⟩ := s
  cases samples with
  | nil => exact hsome
  | cons first rest =>
    have hnumber : ∀ row ∈ first :: rest, Scalar.isMissing row.value = false := by
      intro row hrow
      exact isMissing_of_mem_values hcomplete (List.mem_map_of_mem hrow)
    have hfirst := hnumber first List.mem_cons_self
    have hself := or_self_iff.mp (kind.holds_total hfirst hfirst)
    exact List.length_pos_iff.mpr (extremaAfter_ne_nil hnumber hself)

end Series

end Extrema

/-! ## The middle of the tunnel -/

namespace Series

variable {s : Series Exact}

theorem exists_mean (s : Series Exact) (rule : Quadrature) :
    ∃ mean, s.mean none none rule = .ok mean := by
  rw [Series.mean, integral_times]
  exact ⟨_, rfl⟩

/-- A single sample spans no time and has no mean. -/
theorem Valid.mean_single (hs : s.Valid) (hone : s.length = 1) :
    s.mean none none .standard = .ok .missing := by
  obtain ⟨name, samples⟩ := s
  obtain ⟨sample, rfl⟩ := List.length_eq_one_iff.mp hone
  obtain ⟨t, ht⟩ := eq_num_of_isFinite (hs.1 sample.time List.mem_cons_self)
  have hextent : extent (Series.mk name [sample]).times = num 0 := by
    show extent [sample.time] = num 0
    rw [ht]
    exact congrArg num (sub_self t)
  rw [Series.mean, integral_times]
  show Except.ok (num 0 / extent (Series.mk name [sample]).times) = _
  rw [hextent]
  rfl

theorem tunnelMean_eq {upper lower : Exact}
    (hupper : (s.localExtrema .maximum).mean none none .standard = .ok upper)
    (hlower : (s.localExtrema .minimum).mean none none .standard = .ok lower) :
    s.tunnelMean = .ok ((upper - lower) / Scalar.ofInt 2 + lower) := by
  rw [tunnelMean, hupper, hlower]
  rfl

/-- **The middle of the tunnel lies in the tunnel**, between the extremes of the series, if the series
has two local extrema of either kind. It always has one; where it has no more of some kind, the tunnel
has no middle. -/
theorem tunnelMean_between (hs : s.Valid) (hcomplete : s.hasMissing = false)
    (htwo : 2 ≤ s.length) :
    (∀ kind, 1 ≤ (s.localExtrema kind).length) ∧
    ((∀ kind, 2 ≤ (s.localExtrema kind).length) →
      ∃ least greatest middle : Rat,
        IsLeast {v | num v ∈ s.values} least ∧ IsGreatest {v | num v ∈ s.values} greatest ∧
        s.tunnelMean = .ok (num middle) ∧ least ≤ middle ∧ middle ≤ greatest) ∧
    ∀ kind, (s.localExtrema kind).length = 1 → s.tunnelMean = .ok .missing := by
  refine ⟨fun kind => length_localExtrema_pos hcomplete (by omega) kind, ?_, ?_⟩
  · intro hextrema
    obtain ⟨least, greatest, hleast, hgreatest⟩ := exists_extremes hcomplete (by omega)
    have hmean : ∀ kind, ∃ mean, (s.localExtrema kind).mean none none .standard = .ok (num mean) ∧
        least ≤ mean ∧ mean ≤ greatest := by
      intro kind
      obtain ⟨shares, width, haverage⟩ := (hs.localExtrema kind).exists_averagedBy
        (hasMissing_localExtrema hcomplete kind) (hextrema kind)
        (show Quadrature.standard ≠ .simpson by decide)
      apply haverage.mean_mem
      intro v hv
      have hmem : num v ∈ s.values := ((s.localExtrema_sublist kind).map _).mem hv
      exact ⟨hleast.2 hmem, hgreatest.2 hmem⟩
    obtain ⟨upper, hupper, hupperbounds⟩ := hmean .maximum
    obtain ⟨lower, hlower, hlowerbounds⟩ := hmean .minimum
    refine ⟨least, greatest, (upper - lower) / 2 + lower, hleast, hgreatest, ?_, ?_, ?_⟩
    · rw [tunnelMean_eq hupper hlower, num_sub_num, ofInt_eq, num_div_num _ (by norm_num)]
      rfl
    · linarith
    · linarith
  · intro kind hone
    have hmissing := (hs.localExtrema kind).mean_single hone
    cases kind with
    | minimum =>
      obtain ⟨upper, hupper⟩ := (s.localExtrema .maximum).exists_mean .standard
      rw [tunnelMean_eq hupper hmissing, add_missing]
    | maximum =>
      obtain ⟨lower, hlower⟩ := (s.localExtrema .minimum).exists_mean .standard
      rw [tunnelMean_eq hmissing hlower]
      rfl

/-- A signal that swings twice. -/
theorem tunnelMean_between_of_swings :
    let s : Series Exact := ⟨"s",
      [⟨num 0, num 1⟩, ⟨num 1, num 4⟩, ⟨num 3, num 0⟩, ⟨num 4, num 6⟩, ⟨num 7, num 2⟩]⟩
    (s.Valid ∧ s.hasMissing = false ∧ 2 ≤ s.length) ∧ (∀ kind, 2 ≤ (s.localExtrema kind).length) ∧
      ∃ least greatest middle : Rat,
        IsLeast {v | num v ∈ s.values} least ∧ IsGreatest {v | num v ∈ s.values} greatest ∧
        s.tunnelMean = .ok (num middle) ∧ least ≤ middle ∧ middle ≤ greatest := by
  intro s
  have hs : s.Valid := checkIndex_eq_ok.mp rfl
  have htwo : 2 ≤ s.length := by decide
  have hextrema : ∀ kind, 2 ≤ (s.localExtrema kind).length := by
    intro kind
    cases kind <;> decide
  exact ⟨⟨hs, rfl, htwo⟩, hextrema, (tunnelMean_between hs rfl htwo).2.1 hextrema⟩

/-- Two rising samples have a single crest and a single trough, and no number is the middle. -/
theorem tunnelMean_of_rising :
    let s : Series Exact := ⟨"s", [⟨num 0, num 0⟩, ⟨num 1, num 1⟩]⟩
    s.Valid ∧ s.hasMissing = false ∧ 2 ≤ s.length ∧ ¬ ∃ middle, s.tunnelMean = .ok (num middle) := by
  intro s
  have hmiddle : s.tunnelMean = .ok .missing := by decide +kernel
  refine ⟨checkIndex_eq_ok.mp rfl, rfl, by decide, ?_⟩
  rintro ⟨middle, hnumber⟩
  rw [hmiddle] at hnumber
  cases hnumber

end Series

end StepSignal
