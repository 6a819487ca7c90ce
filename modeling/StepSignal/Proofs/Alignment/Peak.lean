import Mathlib.Algebra.BigOperators.Field
import Mathlib.Algebra.Order.BigOperators.Ring.Finset
import Mathlib.Tactic.Linarith
import Mathlib.Tactic.NormNum
import StepSignal.Proofs.Alignment.Padding

/-!
# The peak of a correlation

The correlation of a sequence with itself is largest at the lag zero: by
`2 x y ≤ x ^ 2 + y ^ 2` it is at most the sum of squares at any lag, and it is that sum only if the
sequence agrees with itself moved by the lag, which would make it repeat beyond its end.

A correlation that no other one exceeds in size sets the threshold a little below itself. Its lag is
the best one if it is zero, or if all other correlations stay below the threshold.
-/

namespace StepSignal

open Exact Scalar

/-! ## A sequence and itself -/

section Autocorrelation

/-- What a sequence moved by any lag still has in its places is no more than it has there unmoved. -/
theorem sum_moved_le {g : Int → Rat} {n : Nat} (hnonneg : ∀ i, 0 ≤ g i)
    (hout : ∀ i, g i ≠ 0 → 0 ≤ i ∧ i < n) (k : Int) :
    ∑ m ∈ Finset.range n, g (m + k) ≤ ∑ m ∈ Finset.range n, g m := by
  rcases Int.lt_or_le k 0 with hneg | hpos
  · obtain ⟨j, hj⟩ := Int.eq_ofNat_of_zero_le (show 0 ≤ -k by omega)
    have hbefore : ∑ m ∈ Finset.range j, g (m + k) = 0 := Finset.sum_eq_zero fun m hm => by
      have hm := Finset.mem_range.mp hm
      by_contra hne
      have := hout _ hne
      omega
    calc ∑ m ∈ Finset.range n, g (m + k)
        ≤ ∑ m ∈ Finset.range (j + n), g (m + k) :=
          Finset.sum_le_sum_of_subset_of_nonneg (Finset.range_mono (by omega)) fun _ _ _ => hnonneg _
      _ = ∑ m ∈ Finset.range n, g m := by
          rw [Finset.sum_range_add, hbefore, zero_add]
          refine Finset.sum_congr rfl fun m _ => congrArg g ?_
          omega
  · obtain ⟨j, rfl⟩ := Int.eq_ofNat_of_zero_le hpos
    calc ∑ m ∈ Finset.range n, g (m + j)
        ≤ ∑ m ∈ Finset.range j, g m + ∑ m ∈ Finset.range n, g (m + j) :=
          le_add_of_nonneg_left (Finset.sum_nonneg fun _ _ => hnonneg _)
      _ = ∑ m ∈ Finset.range (j + n), g m := by
          rw [Finset.sum_range_add]
          congr 1
          refine Finset.sum_congr rfl fun m _ => congrArg g ?_
          omega
      _ = ∑ m ∈ Finset.range n, g m := by
          refine (Finset.sum_subset (Finset.range_mono (by omega)) fun m _ hm => ?_).symm
          by_contra hne
          have := hout _ hne
          rw [Finset.mem_range] at hm
          omega

variable (xs : List Rat) (k : Int)

/-- The squares of a sequence moved by any lag are no more than those of the sequence. -/
theorem sum_sq_moved_le :
    ∑ m ∈ Finset.range xs.length, entryAt xs (m + k) ^ 2 ≤ correlationSum xs xs 0 := by
  have hsq : correlationSum xs xs 0 = ∑ m ∈ Finset.range xs.length, entryAt xs (m : Nat) ^ 2 :=
    Finset.sum_congr rfl fun m _ => by rw [add_zero, sq]
  rw [hsq]
  refine sum_moved_le (g := fun i => entryAt xs i ^ 2) (fun _ => sq_nonneg _) (fun i hi => ?_) k
  exact lt_length_of_entryAt_ne_zero (pow_ne_zero_iff two_ne_zero |>.mp hi)

theorem sum_sq_le :
    ∑ m ∈ Finset.range xs.length, entryAt xs (m : Nat) ^ 2 ≤ correlationSum xs xs 0 := by
  simpa using sum_sq_moved_le xs 0

/-- At no lag is a sequence correlated with itself more than at lag zero, with either sign. -/
theorem abs_correlationSum_self_le : |correlationSum xs xs k| ≤ correlationSum xs xs 0 := by
  calc |correlationSum xs xs k|
      ≤ ∑ m ∈ Finset.range xs.length, |entryAt xs (m + k) * entryAt xs (m : Nat)| :=
        Finset.abs_sum_le_sum_abs _ _
    _ ≤ ∑ m ∈ Finset.range xs.length, (entryAt xs (m + k) ^ 2 + entryAt xs (m : Nat) ^ 2) / 2 := by
        refine Finset.sum_le_sum fun m _ => ?_
        have := two_mul_le_add_sq |entryAt xs (m + k)| |entryAt xs (m : Nat)|
        rw [sq_abs, sq_abs, mul_assoc, ← abs_mul] at this
        linarith
    _ = (∑ m ∈ Finset.range xs.length, entryAt xs (m + k) ^ 2
          + ∑ m ∈ Finset.range xs.length, entryAt xs (m : Nat) ^ 2) / 2 := by
        rw [← Finset.sum_div, Finset.sum_add_distrib]
    _ ≤ correlationSum xs xs 0 := by
        linarith [sum_sq_moved_le xs k, sum_sq_le xs]

variable {xs k}

/-- A sequence that correlates with itself at some lag as it does at lag zero has the same values
when it is moved by the lag. -/
theorem entryAt_moved_eq (hge : correlationSum xs xs 0 ≤ correlationSum xs xs k) {m : Nat}
    (hm : m < xs.length) : entryAt xs (m + k) = entryAt xs (m : Nat) := by
  have hexpand : ∑ m ∈ Finset.range xs.length, (entryAt xs (m + k) - entryAt xs (m : Nat)) ^ 2
      = ∑ m ∈ Finset.range xs.length, entryAt xs (m + k) ^ 2
        + ∑ m ∈ Finset.range xs.length, entryAt xs (m : Nat) ^ 2
        - 2 * correlationSum xs xs k := by
    rw [correlationSum, Finset.mul_sum, ← Finset.sum_add_distrib, ← Finset.sum_sub_distrib]
    exact Finset.sum_congr rfl fun m _ => by ring
  have hzero : ∑ m ∈ Finset.range xs.length, (entryAt xs (m + k) - entryAt xs (m : Nat)) ^ 2 = 0 :=
    le_antisymm (by linarith [sum_sq_moved_le xs k, sum_sq_le xs])
      (Finset.sum_nonneg fun _ _ => sq_nonneg _)
  have hterm := (Finset.sum_eq_zero_iff_of_nonneg fun _ _ => sq_nonneg _).mp hzero m
    (Finset.mem_range.mpr hm)
  exact sub_eq_zero.mp (pow_eq_zero_iff two_ne_zero |>.mp hterm)

/-- Except at lag zero a sequence that is not zero is correlated with itself less. -/
theorem correlationSum_self_lt (hne : ∃ i, entryAt xs i ≠ 0) (hk : k ≠ 0) :
    correlationSum xs xs k < correlationSum xs xs 0 := by
  by_contra hge
  obtain ⟨i, hi⟩ := hne
  -- the value that is not zero would come again after every `k` places, and leave the sequence
  have hrepeat : ∀ j : Nat, entryAt xs (i + j * k) = entryAt xs i := by
    intro j
    induction j with
    | zero => simp
    | succ j ih =>
      obtain ⟨hlo, hhi⟩ := lt_length_of_entryAt_ne_zero (ih ▸ hi)
      obtain ⟨m, hm⟩ := Int.eq_ofNat_of_zero_le hlo
      have hmoved := entryAt_moved_eq (not_lt.mp hge) (show m < xs.length by omega)
      rw [← hm, ih] at hmoved
      rw [← hmoved]
      push_cast
      ring_nf
  obtain ⟨hlo, hhi⟩ := lt_length_of_entryAt_ne_zero hi
  obtain ⟨hlo', hhi'⟩ := lt_length_of_entryAt_ne_zero (hrepeat xs.length ▸ hi)
  rcases lt_or_gt_of_ne hk with hneg | hpos
  · nlinarith
  · nlinarith

end Autocorrelation

/-! ## The peak -/

section Peak

variable {p : Rat}

/-- The largest of some numbers. -/
theorem foldl_max_eq {c : Rat} {rest : List Rat} (hp : p ∈ c :: rest)
    (hle : ∀ x ∈ c :: rest, x ≤ p) : rest.foldl Max.max c = p := by
  induction rest generalizing c with
  | nil => exact (List.mem_singleton.mp hp).symm
  | cons x rest ih =>
    rw [List.forall_mem_cons, List.forall_mem_cons] at hle
    refine ih ?_ (List.forall_mem_cons.mpr ⟨max_le hle.1 hle.2.1, hle.2.2⟩)
    rw [List.mem_cons, List.mem_cons] at hp
    rcases hp with rfl | rfl | hp
    · rw [max_eq_left hle.2.1]
      exact List.mem_cons_self
    · rw [max_eq_right hle.1]
      exact List.mem_cons_self
    · exact List.mem_cons_of_mem _ hp

theorem magnitude_exact {cs : List Rat} (hp : p ∈ cs) (hle : ∀ c ∈ cs, |c| ≤ p) :
    magnitude (exact cs) = num p := by
  have hpos : |p| = p := abs_of_nonneg ((abs_nonneg p).trans (hle p hp))
  have hmax : (cs.map fun c => |c|).foldl Max.max 0 = p := by
    refine foldl_max_eq (List.mem_cons_of_mem _ (List.mem_map.mpr ⟨p, hp, hpos⟩)) ?_
    exact List.forall_mem_cons.mpr ⟨hpos ▸ abs_nonneg p, List.forall_mem_map.mpr hle⟩
  rw [List.foldl_map] at hmax
  exact (foldl_exact (fun a b => by rw [abs_num, max_num]) 0 cs).trans (congrArg num hmax)

/-- The threshold is the peak less the share of it that counts as a tie, when no correlation is
larger than the peak with either sign. -/
theorem tieThreshold_exact {cs : List Rat} (hp : p ∈ cs) (hle : ∀ c ∈ cs, |c| ≤ p) :
    tieThreshold (exact cs) = num (p - p * (1 / 1000000000)) := by
  have hmagnitude := magnitude_exact hp hle
  rcases cs with - | ⟨c, rest⟩
  · cases hp
  have hpeak : (exact rest).foldl Scalar.max (num c) = num p := by
    rw [foldl_exact max_num, foldl_max_eq hp fun x hx => (le_abs_self x).trans (hle x hx)]
  have htolerance : (tieTolerance : Exact) = num (1 / 1000000000) := rfl
  show (exact rest).foldl Scalar.max (num c) - magnitude (exact (c :: rest)) * tieTolerance = _
  rw [hpeak, hmagnitude, htolerance, num_mul_num, num_sub_num]

/-- The peak reaches the threshold. -/
theorem sub_tie_le (hp : 0 ≤ p) : p - p * (1 / 1000000000) ≤ p := by
  linarith

section BestLag

variable {a r : List Rat} {d : Int}

/-- When no correlation is larger than the one at the lag `d`, with either sign, the best lag reaches
the threshold that this one sets, and no smaller lag does. -/
theorem bestLag_of_largest (hlen : a.length = r.length) (hd : d ∈ lags r.length)
    (hle : ∀ lag, |correlationSum a r lag| ≤ correlationSum a r d) :
    let threshold := correlationSum a r d - correlationSum a r d * (1 / 1000000000)
    let best := bestLag (exact a) (exact r)
    threshold ≤ correlationSum a r best ∧
      ∀ lag ∈ lags r.length, threshold ≤ correlationSum a r lag → best.natAbs ≤ lag.natAbs := by
  intro threshold best
  have hcs : correlations (exact a) (exact r)
      = exact ((lags r.length).map (correlationSum a r)) := by
    rw [correlations_exact hlen, exact_map]
  have hthreshold : tieThreshold (correlations (exact a) (exact r)) = num threshold := by
    rw [hcs]
    exact tieThreshold_exact (List.mem_map_of_mem hd) (List.forall_mem_map.mpr fun lag _ => hle lag)
  have hlength : (exact a).length = r.length := (length_exact a).trans hlen
  have hplace : ∀ {j : Nat} {c : Exact}, (correlations (exact a) (exact r))[j]? = some c →
      c = num (correlationSum a r (j - r.length)) := fun {j c} hc => by
    have hj := (List.getElem?_eq_some_iff.mp hc).1
    rw [length_correlations, hlength] at hj
    rw [hcs, exact_map, List.getElem?_map, getElem?_lags hj, Option.map_some, Option.some.injEq] at hc
    exact hc.symm
  have hpeak : threshold ≤ correlationSum a r d := sub_tie_le ((abs_nonneg _).trans (hle d))
  rcases bestLag_cases (exact a) (exact r) with ⟨-, hnone⟩ | ⟨⟨j, c, hc, hreach, hbest⟩, hsmallest⟩
  · have hmem : num (correlationSum a r d) ∈ correlations (exact a) (exact r) := by
      rw [hcs]
      exact List.mem_map_of_mem (List.mem_map_of_mem hd)
    have hlow := hnone _ hmem
    rw [hthreshold, le_num, decide_eq_false_iff_not] at hlow
    exact absurd hpeak hlow
  · rw [hlength] at hbest hsmallest
    constructor
    · rw [hthreshold, hplace hc, le_num, decide_eq_true_eq, ← hbest] at hreach
      exact hreach
    · intro lag hlag hreach'
      obtain ⟨i, hi⟩ := List.mem_iff_getElem?.mp hlag
      have hi' := (List.getElem?_eq_some_iff.mp hi).1
      rw [length_lags] at hi'
      obtain rfl : lag = i - r.length := Option.some.inj (hi.symm.trans (getElem?_lags hi'))
      refine hsmallest i (num (correlationSum a r (i - r.length))) ?_ ?_
      · rw [hcs, exact_map, List.getElem?_map, hi, Option.map_some]
      · rw [hthreshold, le_num, decide_eq_true hreach']

/-- The lag of a peak that stands out from all other correlations is the best one. -/
theorem bestLag_of_peak (hlen : a.length = r.length) (hd : d ∈ lags r.length)
    (hle : ∀ lag, |correlationSum a r lag| ≤ correlationSum a r d)
    (hpeak : ∀ lag ≠ d, correlationSum a r lag
      < correlationSum a r d - correlationSum a r d * (1 / 1000000000)) :
    bestLag (exact a) (exact r) = d := by
  by_contra hother
  exact (hpeak _ hother).not_ge (bestLag_of_largest hlen hd hle).1

/-- A peak at the lag zero is not left for another lag, whether it stands out or not. -/
theorem bestLag_of_largest_zero (hlen : a.length = r.length)
    (hle : ∀ lag, |correlationSum a r lag| ≤ correlationSum a r 0) :
    bestLag (exact a) (exact r) = 0 := by
  rcases Nat.eq_zero_or_pos r.length with hzero | hpos
  · obtain rfl := List.length_eq_zero_iff.mp hzero
    obtain rfl := List.length_eq_zero_iff.mp (hlen.trans hzero)
    rfl
  · have hlag : (0 : Int) ∈ lags r.length := by
      rw [mem_lags]
      omega
    have hreach := sub_tie_le ((abs_nonneg _).trans (hle 0))
    have hsmallest := (bestLag_of_largest hlen hlag hle).2 0 hlag hreach
    omega

/-- A sequence is most like itself when it is not moved. -/
theorem bestLag_self (xs : List Rat) : bestLag (exact xs) (exact xs) = 0 := by
  apply bestLag_of_largest_zero rfl
  intro lag
  exact abs_correlationSum_self_le xs lag

end BestLag

end Peak

end StepSignal
