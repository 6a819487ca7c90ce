import StepSignal.Proofs.Alignment.Parts
import StepSignal.Proofs.Binary64.Whole

/-!
# Grids of doubles

The points of a grid are rounded. Where doubles are dense compared with the period, each point is
less than a quarter of a period away from its exact place, and the places are almost half a period
apart or more, so the points are in order. Where doubles are too far apart two points can be the
same double, and the grid is not an index.
-/

namespace StepSignal

open Scalar Binary64

/-! ## Three roundings -/

theorem one_add_epsilon_sq_le : (1 + epsilon) ^ 2 ≤ 1 + 4 * epsilon := by norm_num [epsilon]

theorem one_add_epsilon_cube_le : (1 + epsilon) ^ 3 ≤ 1 + 13 / 4 * epsilon := by
  norm_num [epsilon]

theorem le_one_sub_epsilon_cube : 1 - 13 / 4 * epsilon ≤ (1 - epsilon) ^ 3 := by
  norm_num [epsilon]

/-- A part that leaves out a step of a length is within it even when it is rounded up. -/
theorem rounded_mul_le {n k : Nat} (hn : n ≤ 2 ^ 50) (hk : k < n) {factor step : Rat}
    (hfactor : factor ≤ 1 + 4 * epsilon) (hstep : 0 ≤ step) : factor * (k * step) ≤ n * step := by
  have hmany : k * (4 * epsilon) ≤ 1 := by
    have hn : (k : Rat) ≤ 2 ^ 50 := by exact_mod_cast hk.le.trans hn
    unfold epsilon
    linarith
  have hk : (k : Rat) + 1 ≤ n := by exact_mod_cast hk
  calc factor * (k * step) ≤ (1 + 4 * epsilon) * (k * step) := by gcongr
    _ = (k + k * (4 * epsilon)) * step := by ring
    _ ≤ n * step := by
      gcongr
      linarith

theorem rounded_step_le {span step : Rat} (k : Nat) (hstep : step ≤ (1 + epsilon) * span) :
    (1 + epsilon) * (k * step) ≤ (1 + epsilon) ^ 2 * (k * span) := by
  have he := epsilon_pos
  calc (1 + epsilon) * (k * step) ≤ (1 + epsilon) * (k * ((1 + epsilon) * span)) := by gcongr
    _ = (1 + epsilon) ^ 2 * (k * span) := by ring

/-- A part of a length that is computed in three roundings, of the length, of its step and of the
multiple of the step, is within the length, and near its place. -/
theorem rounded_part {part span step place : Rat} {n k : Nat} (hpart : 0 ≤ part) (hn : n ≤ 2 ^ 50)
    (hk : k < n) (hspan : (1 - epsilon) * part ≤ span ∧ span ≤ (1 + epsilon) * part)
    (hstep : (1 - epsilon) * span ≤ step ∧ step ≤ (1 + epsilon) * span)
    (hplace : (1 - epsilon) * (k * step) ≤ place ∧ place ≤ (1 + epsilon) * (k * step)) :
    0 ≤ place ∧ place ≤ n * part ∧ |place - k * part| ≤ 13 / 4 * epsilon * (n * part) := by
  have he := epsilon_pos
  have hless : 0 < 1 - epsilon := by norm_num [epsilon]
  have hupper : place ≤ (1 + epsilon) ^ 3 * (k * part) :=
    calc place ≤ (1 + epsilon) ^ 2 * (k * span) := hplace.2.trans (rounded_step_le k hstep.2)
      _ ≤ (1 + epsilon) ^ 2 * (k * ((1 + epsilon) * part)) := by
          gcongr
          exact hspan.2
      _ = (1 + epsilon) ^ 3 * (k * part) := by ring
  have hlower : (1 - epsilon) ^ 3 * (k * part) ≤ place :=
    calc (1 - epsilon) ^ 3 * (k * part)
        = (1 - epsilon) * (k * ((1 - epsilon) * ((1 - epsilon) * part))) := by ring
      _ ≤ (1 - epsilon) * (k * ((1 - epsilon) * span)) := by
          gcongr
          exact hspan.1
      _ ≤ (1 - epsilon) * (k * step) := by
          gcongr
          exact hstep.1
      _ ≤ place := hplace.1
  refine ⟨le_trans (by positivity) hlower, ?_, ?_⟩
  · refine hupper.trans (rounded_mul_le hn hk ?_ hpart)
    linarith [one_add_epsilon_cube_le]
  · have hkn : (k : Rat) * part ≤ n * part := by gcongr
    have hnonneg : 0 ≤ (k : Rat) * part := by positivity
    have hadd := mul_le_mul_of_nonneg_right one_add_epsilon_cube_le hnonneg
    have hsub := mul_le_mul_of_nonneg_right le_one_sub_epsilon_cube hnonneg
    have herror := mul_le_mul_of_nonneg_left hkn (by positivity : 0 ≤ 13 / 4 * epsilon)
    rw [abs_le]
    constructor <;> linarith

/-! ## The scale of a grid -/

/-- Doubles are dense enough for the points of a grid: the span does not overflow and is not a
vanishing part of the period, the period is a double of full precision, and the ends are at most
`2 ^ 47` periods away from zero. -/
structure Resolvable (start stop period : Float) : Prop where
  spanFinite : (stop - start).isFinite = true
  spanLarge : 2 ^ (-1022 : Int) * toRat period ≤ toRat (stop - start)
  periodFinite : period.isFinite = true
  periodLarge : 2 ^ (-1020 : Int) ≤ toRat period
  startNear : |toRat start| ≤ 2 ^ 47 * toRat period
  stopNear : |toRat stop| ≤ 2 ^ 47 * toRat period

/-- A span between two times on a resolvable scale. -/
structure ResolvedSpan (start stop period : Float) : Prop
    extends Resolvable start stop period where
  startFinite : start.isFinite = true
  stopFinite : stop.isFinite = true
  forward : toRat start < toRat stop

/-- The distance between neighbouring points of a grid with `n` steps, if nothing were rounded. -/
def exactStep (start stop : Float) (n : Nat) : Rat := (toRat stop - toRat start) / n

/-- The step of a grid with `n` steps. -/
def gridStep (start stop : Float) (n : Nat) : Float := (stop - start) / Float.ofNat n

/-- The point `k` of a grid with `n` steps. -/
def gridPoint (start stop : Float) (n k : Nat) : Float :=
  start + Float.ofNat k * gridStep start stop n

/-- What is known of the number of steps of a grid: unless there is only one, a step of the rounded
span is about half a period or more. -/
structure StepCount (start stop period : Float) (n : Nat) : Prop where
  pos : 0 < n
  le : n ≤ 2 ^ 50
  wide : 1 < n → toRat period ≤ 2 * (1 + epsilon) * (toRat (stop - start) / n)

section Resolved

variable {start stop period : Float} (h : ResolvedSpan start stop period) {n : Nat}

include h

theorem ResolvedSpan.period_pos : 0 < toRat period :=
  lt_of_lt_of_le (by positivity) h.periodLarge

theorem ResolvedSpan.span_pos : 0 < toRat (stop - start) :=
  (mul_pos (by positivity) h.period_pos).trans_le h.spanLarge

/-- The span is rounded. -/
theorem ResolvedSpan.span_near :
    (1 - epsilon) * (toRat stop - toRat start) ≤ toRat (stop - start) ∧
      toRat (stop - start) ≤ (1 + epsilon) * (toRat stop - toRat start) := by
  have hnear := abs_sub_sub_le h.stopFinite h.startFinite h.spanFinite
  rw [abs_of_pos (sub_pos.mpr h.forward), abs_le] at hnear
  constructor <;> linarith

theorem ResolvedSpan.length_le : toRat stop - toRat start ≤ 2 ^ 48 * toRat period := by
  have hstart := (abs_le.mp h.startNear).1
  have hstop := (abs_le.mp h.stopNear).2
  linarith

/-- The number of periods is rounded, and no number that a list could not have. -/
theorem ResolvedSpan.quotient_near :
    Near ((stop - start) / period) (toRat (stop - start) / toRat period) :=
  near_div h.spanFinite h.span_pos h.periodFinite h.period_pos
    ((le_div_iff₀ h.period_pos).mpr h.spanLarge)

theorem ResolvedSpan.quotient_le : toRat ((stop - start) / period) ≤ 2 ^ 49 := by
  have hquotient : toRat (stop - start) / toRat period ≤ (1 + epsilon) * 2 ^ 48 := by
    rw [div_le_iff₀ h.period_pos, mul_assoc]
    exact h.span_near.2.trans (mul_le_mul_of_nonneg_left h.length_le (by norm_num [epsilon]))
  calc toRat ((stop - start) / period)
      ≤ (1 + epsilon) * (toRat (stop - start) / toRat period) := h.quotient_near.le
    _ ≤ (1 + epsilon) * ((1 + epsilon) * 2 ^ 48) :=
        mul_le_mul_of_nonneg_left hquotient (by norm_num [epsilon])
    _ ≤ 2 ^ 49 := by norm_num [epsilon]

theorem ResolvedSpan.quotient_finite : ((stop - start) / period).isFinite = true := by
  obtain ⟨hfinite, hvalue⟩ := ofNat_whole (n := 2 ^ 49) (by norm_num)
  refine h.quotient_near.isFinite hfinite ?_
  rw [hvalue]
  exact_mod_cast h.quotient_le

theorem ResolvedSpan.quotient_lt_placeLimit : ¬ placeLimit ≤ (stop - start) / period := by
  have hlimit : toRat placeLimit = (2 ^ 60 : Nat) := toRat_whole (by decide +kernel)
  intro hle
  have hle := toRat_le_iff.mpr (le_iff_units.mp hle).2.2
  rw [hlimit] at hle
  have := hle.trans h.quotient_le
  norm_num at this

/-- A grid on a resolvable scale has a number of steps. -/
theorem ResolvedSpan.exists_stepCount : ∃ n,
    Binary64.ceil? ((stop - start) / period) = some n ∧ StepCount start stop period n := by
  have hceil := ceil_le h.quotient_finite h.quotient_near.pos
  refine ⟨_, if_neg h.quotient_lt_placeLimit, ceil_pos h.quotient_near.zero_lt, ?_, fun hone => ?_⟩
  · have hle : (Binary64.ceil ((stop - start) / period) : Rat) ≤ 2 ^ 50 := by
      linarith [h.quotient_le]
    exact_mod_cast hle
  · generalize Binary64.ceil ((stop - start) / period) = n at *
    -- with two steps or more, half of them are less than the periods in the span
    have hone : (2 : Rat) ≤ n := by exact_mod_cast hone
    have hhalf : (n : Rat) / 2 ≤ (1 + epsilon) * (toRat (stop - start) / toRat period) := by
      linarith [h.quotient_near.le]
    rw [mul_div_assoc', le_div_iff₀ h.period_pos] at hhalf
    rw [mul_div_assoc', le_div_iff₀ (by positivity)]
    linarith

/-! ### The step -/

omit h in
theorem mul_exactStep (hn : 0 < n) : n * exactStep start stop n = toRat stop - toRat start :=
  mul_div_cancel₀ _ (Nat.cast_pos.mpr hn).ne'

theorem ResolvedSpan.exactStep_pos (hn : 0 < n) : 0 < exactStep start stop n :=
  div_pos (sub_pos.mpr h.forward) (Nat.cast_pos.mpr hn)

/-- The rounded span has rounded steps. -/
theorem ResolvedSpan.span_div_near (hn : 0 < n) :
    (1 - epsilon) * exactStep start stop n ≤ toRat (stop - start) / n ∧
      toRat (stop - start) / n ≤ (1 + epsilon) * exactStep start stop n := by
  have hn : (0 : Rat) < n := Nat.cast_pos.mpr hn
  unfold exactStep
  rw [mul_div_assoc', mul_div_assoc', div_le_div_iff_of_pos_right hn,
    div_le_div_iff_of_pos_right hn]
  exact h.span_near

/-- Of two steps or more, each is almost half a period. -/
theorem ResolvedSpan.wide_exactStep (hn : StepCount start stop period n) (hone : 1 < n) :
    15 / 32 * toRat period < exactStep start stop n := by
  have hstep := h.exactStep_pos hn.pos
  have hspan : toRat period ≤ 2 * (1 + epsilon) ^ 2 * exactStep start stop n :=
    calc toRat period ≤ 2 * (1 + epsilon) * (toRat (stop - start) / n) := hn.wide hone
      _ ≤ 2 * (1 + epsilon) * ((1 + epsilon) * exactStep start stop n) :=
          mul_le_mul_of_nonneg_left (h.span_div_near hn.pos).2 (by norm_num [epsilon])
      _ = 2 * (1 + epsilon) ^ 2 * exactStep start stop n := by ring
  have hfactor : 15 / 32 * (2 * (1 + epsilon) ^ 2) < 1 := by norm_num [epsilon]
  nlinarith

theorem ResolvedSpan.finite_gridStep (hn : 0 < n) : (gridStep start stop n).isFinite = true :=
  isFinite_div h.spanFinite (one_le_ofNat hn)

/-- Of two steps or more, each is rounded, and a double of full precision. -/
theorem ResolvedSpan.gridStep_near (hn : StepCount start stop period n) (hone : 1 < n) :
    2 ^ (-1022 : Int) ≤ toRat (gridStep start stop n) ∧
      Near (gridStep start stop n) (toRat (stop - start) / n) := by
  have hpos : (0 : Rat) < n := Nat.cast_pos.mpr hn.pos
  have hspan : 0 < toRat (stop - start) / n := div_pos h.span_pos hpos
  have hlarge : 4 * (2 : Rat) ^ (-1022 : Int) ≤ 2 * (1 + epsilon) * (toRat (stop - start) / n) :=
    calc 4 * (2 : Rat) ^ (-1022 : Int) = 2 ^ (2 + -1022 : Int) := by
          rw [zpow_add₀ two_ne_zero]
          norm_num
      _ ≤ toRat period := h.periodLarge
      _ ≤ 2 * (1 + epsilon) * (toRat (stop - start) / n) := hn.wide hone
  have htiny : (0 : Rat) < 2 ^ (-1022 : Int) := by positivity
  have hsmall : epsilon ≤ 1 / 100 := by norm_num [epsilon]
  obtain ⟨hfinite, hvalue⟩ := ofNat_whole (n := n) (hn.le.trans_lt (by norm_num))
  have hnear : Near (gridStep start stop n) (toRat (stop - start) / n) := by
    rw [← hvalue] at hspan hlarge hpos ⊢
    refine near_div h.spanFinite h.span_pos hfinite hpos ?_
    generalize (2 : Rat) ^ (-1022 : Int) = tiny at *
    nlinarith
  refine ⟨?_, hnear⟩
  have hge := hnear.ge (h.finite_gridStep hn.pos)
  generalize (2 : Rat) ^ (-1022 : Int) = tiny at *
  nlinarith

/-! ### The points -/

/-- Each distance from the start is rounded, and within the span. -/
theorem ResolvedSpan.place_near (hn : StepCount start stop period n) {k : Nat} (hk : 0 < k)
    (hkn : k < n) :
    (Float.ofNat k * gridStep start stop n).isFinite = true ∧
      0 ≤ toRat (Float.ofNat k * gridStep start stop n) ∧
      toRat (Float.ofNat k * gridStep start stop n) ≤ toRat stop - toRat start ∧
      |toRat (Float.ofNat k * gridStep start stop n) - k * exactStep start stop n|
        ≤ 13 / 64 * toRat period := by
  obtain ⟨hlarge, hstep⟩ := h.gridStep_near hn (Nat.lt_of_le_of_lt hk hkn)
  have hfinite := h.finite_gridStep hn.pos
  obtain ⟨hcount, hvalue⟩ := ofNat_whole (n := k) (hkn.trans_le hn.le |>.trans (by norm_num))
  have hpos : (0 : Rat) < n := Nat.cast_pos.mpr hn.pos
  have hone : (1 : Rat) ≤ k := by exact_mod_cast hk
  have hplace : Near (Float.ofNat k * gridStep start stop n) (k * toRat (gridStep start stop n)) := by
    rw [← hvalue] at hone ⊢
    exact near_mul hcount hone hfinite hstep.pos
      (hlarge.trans (le_mul_of_one_le_left hstep.pos.le hone))
  have hplaceFinite : (Float.ofNat k * gridStep start stop n).isFinite = true := by
    refine hplace.isFinite h.spanFinite ?_
    calc toRat (Float.ofNat k * gridStep start stop n)
        ≤ (1 + epsilon) * (k * toRat (gridStep start stop n)) := hplace.le
      _ ≤ (1 + epsilon) ^ 2 * (k * (toRat (stop - start) / n)) := rounded_step_le k hstep.le
      _ ≤ n * (toRat (stop - start) / n) :=
          rounded_mul_le hn.le hkn one_add_epsilon_sq_le (div_pos h.span_pos hpos).le
      _ = toRat (stop - start) := mul_div_cancel₀ _ hpos.ne'
  have hpart := rounded_part (h.exactStep_pos hn.pos).le hn.le hkn (h.span_div_near hn.pos)
    ⟨hstep.ge hfinite, hstep.le⟩ ⟨hplace.ge hplaceFinite, hplace.le⟩
  rw [mul_exactStep hn.pos] at hpart
  refine ⟨hplaceFinite, hpart.1, hpart.2.1, hpart.2.2.trans ?_⟩
  have herror : 13 / 4 * epsilon * 2 ^ 48 = 13 / 64 := by norm_num [epsilon]
  rw [← herror, mul_assoc _ _ (toRat period)]
  exact mul_le_mul_of_nonneg_left h.length_le (by norm_num [epsilon])

/-- The first point is the start. -/
theorem ResolvedSpan.gridPoint_zero (hn : 0 < n) :
    (gridPoint start stop n 0).isFinite = true ∧
      toRat (gridPoint start stop n 0) = toRat start := by
  obtain ⟨hfinite, hzero⟩ := zero_mul_isFinite (h.finite_gridStep hn)
  have hzero : toRat (Float.ofInt 0 * gridStep start stop n) = 0 := by
    show (units _ / 2 ^ 1074 : Rat) = 0
    rw [hzero, Int.cast_zero, zero_div]
  obtain ⟨hpoint, hle, hge⟩ := add_between h.startFinite hfinite h.startFinite hzero.ge
    (by rw [hzero, add_zero])
  exact ⟨hpoint, hge.antisymm hle⟩

/-- Each point but the last one is less than a quarter of a period away from its place. -/
theorem ResolvedSpan.gridPoint_near (hn : StepCount start stop period n) {k : Nat} (hkn : k < n) :
    (gridPoint start stop n k).isFinite = true ∧
      |toRat (gridPoint start stop n k) - (toRat start + k * exactStep start stop n)|
        ≤ 15 / 64 * toRat period := by
  have hperiod := h.period_pos
  rcases Nat.eq_zero_or_pos k with rfl | hk
  · obtain ⟨hfinite, hvalue⟩ := h.gridPoint_zero hn.pos
    refine ⟨hfinite, ?_⟩
    rw [hvalue, Nat.cast_zero, zero_mul, add_zero, sub_self, abs_zero]
    positivity
  · obtain ⟨hfinite, hnonneg, hle, hplace⟩ := h.place_near hn hk hkn
    obtain ⟨hpoint, -⟩ := add_between h.startFinite hfinite h.stopFinite hnonneg (by linarith)
    have hsum := abs_add_sub_le h.startFinite hfinite hpoint
    -- the sum is between the start and the end, which are not many periods away from zero
    have hsmall : |toRat start + toRat (Float.ofNat k * gridStep start stop n)|
        ≤ 2 ^ 47 * toRat period := by
      have hstart := (abs_le.mp h.startNear).1
      have hstop := (abs_le.mp h.stopNear).2
      rw [abs_le]
      constructor <;> linarith
    refine ⟨hpoint, ?_⟩
    have herror : epsilon * (2 ^ 47 * toRat period) = 2 / 64 * toRat period := by
      rw [← mul_assoc]
      norm_num [epsilon]
    have hsum := hsum.trans (mul_le_mul_of_nonneg_left hsmall epsilon_pos.le)
    rw [herror] at hsum
    unfold gridPoint
    rw [abs_le] at *
    constructor <;> linarith

/-- The points are in order. -/
theorem ResolvedSpan.gridPoint_before (hn : StepCount start stop period n) {i j : Nat} (hij : i < j)
    (hjn : j < n) : Before (gridPoint start stop n i) (gridPoint start stop n j) := by
  have hwide := h.wide_exactStep hn (by omega)
  have hi := abs_le.mp (h.gridPoint_near hn (hij.trans hjn)).2
  have hj := abs_le.mp (h.gridPoint_near hn hjn).2
  have hplaces : (i + 1) * exactStep start stop n ≤ j * exactStep start stop n :=
    mul_le_mul_of_nonneg_right (by exact_mod_cast hij) (h.exactStep_pos hn.pos).le
  unfold Before
  linarith

/-- The points are before the end. -/
theorem ResolvedSpan.gridPoint_before_stop (hn : StepCount start stop period n) {k : Nat}
    (hkn : k < n) : Before (gridPoint start stop n k) stop := by
  unfold Before
  rcases Nat.eq_zero_or_pos k with rfl | hk
  · rw [(h.gridPoint_zero hn.pos).2]
    exact h.forward
  · have hwide := h.wide_exactStep hn (by omega)
    have hpoint := abs_le.mp (h.gridPoint_near hn hkn).2
    have hplaces : (k + 1) * exactStep start stop n ≤ n * exactStep start stop n :=
      mul_le_mul_of_nonneg_right (by exact_mod_cast hkn) (h.exactStep_pos hn.pos).le
    rw [mul_exactStep hn.pos] at hplaces
    linarith [h.period_pos]

/-- A grid on a resolvable scale is an ordered index, from the start of its span to the end. -/
theorem ResolvedSpan.exists_grid : ∃ grid, TimeGrid.spanning start stop period = .ok grid ∧
    Ordered grid.points ∧ (∃ first, grid.points.head? = some first ∧ eq first start = true) ∧
    grid.points.getLast? = some stop := by
  obtain ⟨n, hceil, hn⟩ := h.exists_stepCount
  obtain ⟨m, rfl⟩ := Nat.exists_eq_succ_of_ne_zero hn.pos.ne'
  refine ⟨⟨gridStep start stop (m + 1),
    (List.range (m + 1)).map (gridPoint start stop (m + 1)) ++ [stop]⟩, ?_, ?_, ?_,
    List.getLast?_concat⟩
  · rw [TimeGrid.spanning, show Scalar.ceil? ((stop - start) / period) = some (m + 1) from hceil]
    rfl
  · rw [ordered_iff, List.pairwise_append, List.pairwise_map]
    refine ⟨fun t ht => ?_, ?_, List.pairwise_singleton _ _, fun t ht u hu => ?_⟩
    · rcases List.mem_append.mp ht with ht | ht
      · obtain ⟨k, hk, rfl⟩ := List.mem_map.mp ht
        exact (h.gridPoint_near hn (List.mem_range.mp hk)).1
      · rw [List.mem_singleton.mp ht]
        exact h.stopFinite
    · exact List.pairwise_lt_range.imp_of_mem fun _ hj hij =>
        h.gridPoint_before hn hij (List.mem_range.mp hj)
    · obtain ⟨k, hk, rfl⟩ := List.mem_map.mp ht
      rw [List.mem_singleton.mp hu]
      exact h.gridPoint_before_stop hn (List.mem_range.mp hk)
  · obtain ⟨hfinite, hvalue⟩ := h.gridPoint_zero hn.pos
    refine ⟨gridPoint start stop (m + 1) 0, by simp [List.range_succ_eq_map], ?_⟩
    exact (LawfulScalar.eq_iff _ _).mpr
      ⟨isNaN_of_isFinite hfinite, isNaN_of_isFinite h.startFinite, hvalue⟩

end Resolved

/-- The grid over a single time is that time. -/
theorem TimeGrid.spanning_self {start stop period : Float} (hstart : start.isFinite = true)
    (hstop : stop.isFinite = true) (heq : units start = units stop)
    (hperiod : period.isNaN = false) (hpos : 0 < units period) :
    TimeGrid.spanning start stop period = .ok ⟨Scalar.zero, [start]⟩ := by
  have hunits : units (stop - start) = 0 := by
    rw [units_sub hstop hstart, sub_eq_zero.mpr heq.symm, roundUnits_zero]
  have hspan : (stop - start).isFinite = true := by
    rw [isFinite_iff_units, hunits]
    exact ⟨isNaN_sub hstop hstart, infinityUnits_pos⟩
  have hceil : Scalar.ceil? ((stop - start) / period) = some 0 :=
    ceil?_zero_div hspan hunits hperiod hpos
  rw [spanning, hceil]
  rfl

/-- A grid is an ordered index, from the start of its span to the end, if the scale of a span that is
not a single time is resolvable. -/
theorem TimeGrid.exists_ordered {start stop period : Float} (hstart : start.isFinite = true)
    (hstop : stop.isFinite = true) (hforward : start ≤ stop) (hperiod : period.isNaN = false)
    (hpos : 0 < units period) (hscale : start < stop → Resolvable start stop period) :
    ∃ grid, TimeGrid.spanning start stop period = .ok grid ∧ Ordered grid.points ∧
      (∃ first, grid.points.head? = some first ∧ (first == start) = true) ∧
      ∃ last, grid.points.getLast? = some last ∧ (last == stop) = true := by
  obtain ⟨hnumber, hnumber', hle⟩ := le_iff_units.mp hforward
  rcases hle.lt_or_eq with hlt | heq
  · have hscale := hscale (lt_iff_units.mpr ⟨hnumber, hnumber', hlt⟩)
    obtain ⟨grid, hgrid, hordered, hfirst, hlast⟩ :=
      ResolvedSpan.exists_grid ⟨hscale, hstart, hstop, toRat_lt_iff.mpr hlt⟩
    exact ⟨grid, hgrid, hordered, hfirst, stop, hlast, beq_iff_units.mpr ⟨hnumber', hnumber', rfl⟩⟩
  · refine ⟨_, TimeGrid.spanning_self hstart hstop heq hperiod hpos, ?_,
      ⟨start, rfl, beq_iff_units.mpr ⟨hnumber, hnumber, rfl⟩⟩, start, rfl,
      beq_iff_units.mpr ⟨hnumber, hnumber', heq⟩⟩
    refine ordered_iff.mpr ⟨fun t ht => ?_, List.pairwise_singleton _ _⟩
    rw [List.mem_singleton.mp ht]
    exact hstart

/-! ## Alignment -/

theorem TimeGrid.spanning_cases (start stop period : Float) :
    TimeGrid.spanning start stop period = .error .endlessGrid ∨
      ∃ grid, TimeGrid.spanning start stop period = .ok grid := by
  rw [spanning]
  split <;> simp

/-- There is no grid when a list cannot have that many points. -/
theorem TimeGrid.spanning_eq_error {start stop period : Float} :
    TimeGrid.spanning start stop period = .error .endlessGrid ↔
      placeLimit ≤ (stop - start) / period := by
  have hceil : Scalar.ceil? ((stop - start) / period) = none ↔
      placeLimit ≤ (stop - start) / period := by
    show Binary64.ceil? _ = none ↔ _
    rw [Binary64.ceil?]
    split <;> simp [*]
  rw [spanning, ← hceil]
  split <;> simp [*]

section Align

variable {reference moved : Series Float} {maxShift : Option Float} {start stop : Float}

/-- What two series both cover ends at a finite time, that of one of their samples. -/
theorem Series.Valid.overlap_stop (hr : reference.Valid) (hm : moved.Valid)
    (h : reference.overlap moved = .ok (start, stop)) : stop.isFinite = true := by
  unfold Series.overlap at h
  split at h
  · rename_i r₁ m₁ _ _ hrlast hmlast
    dsimp only at h
    split at h
    · cases h
    cases h
    rcases min_eq_or r₁ m₁ with heq | heq <;> rw [heq]
    · exact hr.1 _ (List.mem_of_getLast? hrlast)
    · exact hm.1 _ (List.mem_of_getLast? hmlast)
  · cases h

theorem checkMaxShift_eq_ok (h : ∀ limit ∈ maxShift, limit.isFinite = true ∧ 0 ≤ limit) :
    checkMaxShift maxShift = .ok () := by
  cases maxShift with
  | none => rfl
  | some limit =>
    obtain ⟨hfinite, hle⟩ := h limit rfl
    have hlt : Scalar.lt limit Scalar.zero = false := lt_eq_false_of_le (le_iff_scalar.mp hle)
    rw [checkMaxShift, show Scalar.isFinite limit = true from hfinite, hlt]
    rfl

/-- Complete series of two samples or more that cover a common time are aligned, unless the grid has
more points than a list can have. Where doubles are dense enough for the grid, the aligned series are
valid, on the same times, which go from the start of what both cover to its end. -/
theorem Series.align_resolvable (hr : reference.Valid) (hm : moved.Valid)
    (hrlength : 2 ≤ reference.length) (hmlength : 2 ≤ moved.length)
    (hrcomplete : reference.hasMissing = false) (hmcomplete : moved.hasMissing = false)
    (hlimit : ∀ limit ∈ maxShift, limit.isFinite = true ∧ 0 ≤ limit)
    (hoverlap : reference.overlap moved = .ok (start, stop)) :
    ∃ referenceGap movedGap, reference.smallestGap = .ok referenceGap ∧
      moved.smallestGap = .ok movedGap ∧
      (let period := Scalar.min referenceGap movedGap
       (placeLimit ≤ (stop - start) / period →
         reference.align moved maxShift = .error .endlessGrid) ∧
       (¬ placeLimit ≤ (stop - start) / period →
         ∃ out, reference.align moved maxShift = .ok out) ∧
       ((start < stop → Resolvable start stop period) →
         ∃ out, reference.align moved maxShift = .ok out ∧
           out.reference.Valid ∧ out.aligned.Valid ∧ out.aligned.times = out.reference.times ∧
           (∃ first, out.reference.times.head? = some first ∧ (first == start) = true) ∧
           ∃ last, out.reference.times.getLast? = some last ∧ (last == stop) = true)) := by
  obtain ⟨referenceGap, hreferenceGap⟩ := Series.exists_smallestGap hrlength
  obtain ⟨movedGap, hmovedGap⟩ := Series.exists_smallestGap hmlength
  refine ⟨referenceGap, movedGap, hreferenceGap, hmovedGap, ?_⟩
  rw [align_eq_map (checkMaxShift_eq_ok hlimit) hrcomplete hmcomplete hreferenceGap hmovedGap hoverlap]
  obtain ⟨earlier, later, hearlier, hlater, hbefore, hperiod⟩ :=
    hr.exists_period hm hreferenceGap hmovedGap
  obtain ⟨hstart, hforward, -⟩ := hr.overlap_eq_ok hm hoverlap
  have hstop := hr.overlap_stop hm hoverlap
  intro period
  refine ⟨fun hendless => ?_, fun hlisted => ?_, fun hscale => ?_⟩
  · rw [TimeGrid.spanning_eq_error.mpr hendless]
    rfl
  · obtain ⟨grid, hgrid⟩ := (TimeGrid.spanning_cases start stop period).resolve_left
      (mt TimeGrid.spanning_eq_error.mp hlisted)
    rw [hgrid]
    exact ⟨_, rfl⟩
  · have hunits := units_sub_pos hlater hearlier (toRat_lt_iff.mp hbefore)
    rw [← hperiod] at hunits
    obtain ⟨grid, hgrid, hordered, hfirst, hlast⟩ := TimeGrid.exists_ordered hstart hstop
      (le_iff_scalar.mpr hforward) (hperiod ▸ isNaN_sub hlater hearlier) hunits hscale
    obtain ⟨hrtimes, hmtimes⟩ := Series.times_alignedOn reference moved maxShift period grid
    rw [hgrid]
    refine ⟨_, rfl, ?_⟩
    rw [Series.Valid, Series.Valid, hmtimes, hrtimes]
    exact ⟨hordered, hordered, rfl, hfirst, hlast⟩

-- The smallest double above zero goes into one more often than a list has places.
example :
    let reference : Series Float := ⟨"a", [⟨0, 0⟩, ⟨5e-324, 0⟩, ⟨1, 0⟩]⟩
    let moved : Series Float := ⟨"b", [⟨0, 0⟩, ⟨1, 0⟩]⟩
    reference.align moved none = .error .endlessGrid := by
  decide +kernel

/-- Series of three samples that have two periods in common. -/
theorem Series.align_resolvable_of_pulse :
    let reference : Series Float := ⟨"a", [⟨0, 0⟩, ⟨2, 1⟩, ⟨3, 0⟩]⟩
    let moved : Series Float := ⟨"b", [⟨1, 0⟩, ⟨2, 0⟩, ⟨4, 1⟩]⟩
    reference.Valid ∧ moved.Valid ∧ reference.overlap moved = .ok (1, 3) ∧
      Resolvable 1 3 1 ∧
      ∃ out, reference.align moved (some 1) = .ok out ∧
        out.reference.Valid ∧ out.aligned.Valid ∧ out.aligned.times = out.reference.times ∧
        (∃ first, out.reference.times.head? = some first ∧ (first == 1) = true) ∧
        ∃ last, out.reference.times.getLast? = some last ∧ (last == 3) = true := by
  intro reference moved
  have hr : reference.Valid := checkIndex_eq_ok.mp (by decide +kernel)
  have hm : moved.Valid := checkIndex_eq_ok.mp (by decide +kernel)
  have hoverlap : reference.overlap moved = .ok (1, 3) := by decide +kernel
  have hscale : Resolvable 1 3 1 := by
    have hstart : toRat (1 : Float) = (1 : Nat) := toRat_whole (by decide +kernel)
    have hstop : toRat (3 : Float) = (3 : Nat) := toRat_whole (by decide +kernel)
    have hspan : toRat (3 - 1 : Float) = (2 : Nat) := toRat_whole (by decide +kernel)
    refine ⟨by decide +kernel, ?_, by decide +kernel, ?_, ?_, ?_⟩
    · rw [hspan, hstart, Nat.cast_one, mul_one]
      exact zpow_le_one_of_nonpos₀ one_le_two (by decide) |>.trans (by norm_num)
    · rw [hstart]
      exact zpow_le_one_of_nonpos₀ one_le_two (by decide) |>.trans (by norm_num)
    · norm_num [hstart]
    · norm_num [hstart, hstop]
  have hlimit : ∀ limit ∈ some (1 : Float), limit.isFinite = true ∧ 0 ≤ limit := by
    rintro limit ⟨⟩
    decide +kernel
  have hreferenceGap : reference.smallestGap = .ok 1 := by decide +kernel
  have hmovedGap : moved.smallestGap = .ok 1 := by decide +kernel
  obtain ⟨g₁, g₂, hg₁, hg₂, -, -, haligned⟩ := Series.align_resolvable hr hm (by decide) (by decide)
    (by decide +kernel) (by decide +kernel) hlimit hoverlap
  obtain rfl := Except.ok.inj (hreferenceGap.symm.trans hg₁)
  obtain rfl := Except.ok.inj (hmovedGap.symm.trans hg₂)
  exact ⟨hr, hm, hoverlap, hscale, haligned fun _ => hscale⟩

/-- Next to `10 ^ 16` only even numbers are doubles, and a grid in steps of one has the same time
twice. -/
theorem Series.align_repeats_time :
    let reference : Series Float := ⟨"a", [⟨0, 0⟩, ⟨1, 0⟩, ⟨1e16, 0⟩, ⟨10000000000000002, 1⟩]⟩
    let moved : Series Float := ⟨"b", [⟨1e16, 0⟩, ⟨10000000000000002, 1⟩]⟩
    reference.Valid ∧ moved.Valid ∧ reference.hasMissing = false ∧ moved.hasMissing = false ∧
      reference.overlap moved = .ok (1e16, 10000000000000002) ∧
      ∃ out, reference.align moved none = .ok out ∧
        out.reference.times = [1e16, 1e16, 10000000000000002] ∧ ¬ out.reference.Valid := by
  intro reference moved
  have hout : reference.align moved none = .ok
      ⟨⟨"a", [⟨1e16, 0⟩, ⟨1e16, 0⟩, ⟨10000000000000002, 1⟩]⟩,
        ⟨"b", [⟨1e16, 0⟩, ⟨1e16, 0⟩, ⟨10000000000000002, 1⟩]⟩, 0, 0, 1, 1⟩ := by
    decide +kernel
  refine ⟨checkIndex_eq_ok.mp (by decide +kernel), checkIndex_eq_ok.mp (by decide +kernel),
    by decide +kernel, by decide +kernel, by decide +kernel, _, hout, rfl, fun hvalid => ?_⟩
  exact absurd (checkIndex_eq_ok.mpr hvalid) (by decide +kernel)

end Align

end StepSignal
