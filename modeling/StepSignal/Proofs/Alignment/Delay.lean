import StepSignal.Proofs.Alignment.Peak

/-!
# Delays are recovered

The correlation of a delayed sequence with the sequence is that of the sequence with itself, around
the delay, and so it is largest there. For integers the largest correlation stands out by at least
one, which is more than what counts as a tie.
-/

namespace StepSignal

open Exact Scalar

/-- A sequence delayed by `d` places, with zeros in the places that become free. -/
def delayed {R : Type} [Zero R] (xs : List R) (d : Int) : List R :=
  (List.range xs.length).map fun (j : Nat) => entryAt xs (j - d)

/-- A sequence stays within its places when it is delayed. -/
def FitsDelayed {R : Type} [Zero R] (xs : List R) (d : Int) : Prop :=
  ∀ i, entryAt xs i ≠ 0 → 0 ≤ i + d ∧ i + d < xs.length

section Delayed

variable {R : Type} [Zero R] {xs : List R} {d : Int}

@[simp] theorem length_delayed (xs : List R) (d : Int) : (delayed xs d).length = xs.length := by
  simp [delayed]

/-- Nothing gets lost when a sequence that fits is delayed. -/
theorem entryAt_delayed (h : FitsDelayed xs d) (i : Int) :
    entryAt (delayed xs d) i = entryAt xs (i - d) := by
  by_cases hin : 0 ≤ i ∧ i < xs.length
  · obtain ⟨j, rfl⟩ := Int.eq_ofNat_of_zero_le hin.1
    have hj : j < xs.length := by omega
    rw [entryAt_natCast, List.getD_eq_getElem _ _ (by simpa using hj)]
    simp [delayed]
  · have hzero : entryAt (delayed xs d) i = 0 := by
      by_contra hne
      have := lt_length_of_entryAt_ne_zero hne
      rw [length_delayed] at this
      exact hin this
    rw [hzero]
    by_contra hne
    have := h (i - d) (Ne.symm hne)
    omega

end Delayed

/-! ## Delayed sequences -/

/-- A delayed sequence is correlated with the sequence as that is with itself, around the delay. -/
theorem correlationSum_delayed {xs : List Rat} {d : Int} (h : FitsDelayed xs d) (lag : Int) :
    correlationSum (delayed xs d) xs lag = correlationSum xs xs (lag - d) :=
  Finset.sum_congr rfl fun m _ => by rw [entryAt_delayed h, add_sub_assoc]

section Integers

variable {r : List Int} {d : Int}

/-- Integers as rational numbers. -/
def asRats (xs : List Int) : List Rat := xs.map Int.cast

@[simp] theorem length_asRats (xs : List Int) : (asRats xs).length = xs.length := List.length_map _

theorem map_ofInt_eq (xs : List Int) : (xs.map Scalar.ofInt : List Exact) = exact (asRats xs) := by
  rw [exact, asRats, List.map_map]
  rfl

theorem entryAt_asRats (xs : List Int) (i : Int) : entryAt (asRats xs) i = entryAt xs i :=
  entryAt_map Int.cast_zero xs i

theorem asRats_delayed (r : List Int) (d : Int) : asRats (delayed r d) = delayed (asRats r) d := by
  simp only [asRats, delayed, List.map_map, List.length_map]
  exact List.map_congr_left fun j _ => (entryAt_asRats r _).symm

/-- Integers have integer correlations. -/
theorem correlationSum_asRats (a r : List Int) (lag : Int) :
    correlationSum (asRats a) (asRats r) lag
      = (∑ m ∈ Finset.range r.length, entryAt a (m + lag) * entryAt r (m : Nat) : Int) := by
  simp only [correlationSum, length_asRats, entryAt_asRats]
  push_cast
  rfl

/-- The correlation of integers with themselves at lag zero is the sum of their squares. -/
theorem correlationSum_asRats_zero (r : List Int) :
    correlationSum (asRats r) (asRats r) 0 = ((r.map (· ^ 2)).sum : Int) := by
  have hsquares : (r.map (· ^ 2)).sum = (List.zipWith (· * ·) r r).sum := by
    simp only [List.zipWith_self, sq]
  rw [correlationSum_asRats, hsquares, sum_zipWith r r le_rfl]
  simp only [add_zero]

/-- Integers that are not all zero are correlated with themselves less by at least one, except at lag
zero. -/
theorem correlationSum_asRats_self_le (hne : ∃ i, entryAt r i ≠ 0) {k : Int} (hk : k ≠ 0) :
    correlationSum (asRats r) (asRats r) k ≤ ((r.map (· ^ 2)).sum : Int) - 1 := by
  obtain ⟨i, hi⟩ := hne
  have hlt := correlationSum_self_lt ⟨i, by rwa [entryAt_asRats, Int.cast_ne_zero]⟩ hk
  rw [correlationSum_asRats_zero, correlationSum_asRats, Int.cast_lt] at hlt
  rw [correlationSum_asRats]
  exact_mod_cast Int.le_sub_one_of_lt hlt

/-- A delay that a sequence fits is one of its lags, if the sequence is not zero. -/
theorem mem_lags_of_fits (hfits : FitsDelayed r d) (hne : ∃ i, entryAt r i ≠ 0) :
    d ∈ lags r.length := by
  obtain ⟨i, hi⟩ := hne
  have hin := lt_length_of_entryAt_ne_zero hi
  have hmoved := hfits i hi
  rw [mem_lags]
  omega

theorem bestLag_exact_delayed (hne : ∃ i, entryAt r i ≠ 0)
    (henergy : (r.map (· ^ 2)).sum < 10 ^ 9) (hfits : FitsDelayed r d) :
    bestLag (exact (delayed (asRats r) d)) (exact (asRats r)) = d := by
  have hfits' : FitsDelayed (asRats r) d := fun i hi => by
    rw [length_asRats]
    rw [entryAt_asRats, Int.cast_ne_zero] at hi
    exact hfits i hi
  refine bestLag_of_peak (by simp) (by simpa using mem_lags_of_fits hfits hne) (fun lag => ?_)
    fun lag hlag => ?_ <;> simp only [correlationSum_delayed hfits', sub_self]
  · exact abs_correlationSum_self_le _ _
  · -- a whole unit is more than the share of the peak that counts as a tie
    have hless := correlationSum_asRats_self_le hne (sub_ne_zero.mpr hlag)
    have hbound : (((r.map (· ^ 2)).sum : Int) : Rat) < 10 ^ 9 := by exact_mod_cast henergy
    rw [correlationSum_asRats_zero]
    linarith

/-- Moving a delayed sequence by the delay gives back the values that are still there. -/
theorem shiftValues_delayed {α : Type} [Scalar α] (f : Int → α) (r : List Int) (d : Int) :
    shiftValues ((delayed r d).map f) d = (List.range r.length).map fun (i : Nat) =>
      if 0 ≤ i + d ∧ i + d < r.length then f (entryAt r i) else Scalar.missing := by
  have hlen : ((delayed r d).map f).length = r.length := by simp
  refine List.ext_getElem? fun i => ?_
  by_cases hi : i < r.length
  · rw [getElem?_shiftValues _ _ (by omega), List.getElem?_map, List.getElem?_range hi,
      Option.map_some, hlen]
    refine congrArg some (if_ctx_congr Iff.rfl (fun hin => ?_) fun _ => rfl)
    rw [List.getD_eq_getElem _ _ (by omega), List.getElem_map]
    simp only [delayed, List.getElem_map, List.getElem_range]
    congr 2
    omega
  · rw [List.getElem?_eq_none (by simpa using hi), List.getElem?_eq_none (by simpa using hi)]

/-- **A delay is recovered.** A sequence of integers that is not zero, has squares that sum up to
less than `10 ^ 9` and stays within its places when it is delayed is most like the delayed sequence at
the lag of the delay, and moving that one by the lag gives back the values. -/
theorem bestLag_delayed (hne : ∃ x ∈ r, x ≠ 0) (henergy : (r.map (· ^ 2)).sum < 10 ^ 9)
    (hfits : FitsDelayed r d) :
    let a : List Exact := (delayed r d).map Scalar.ofInt
    let reference : List Exact := r.map Scalar.ofInt
    correlations a reference = (lags r.length).map (correlationAt a reference) ∧
      bestLag a reference = d ∧
      shiftValues a (bestLag a reference) = (List.range r.length).map fun (i : Nat) =>
        if 0 ≤ i + d ∧ i + d < r.length then Scalar.ofInt (entryAt r i) else Scalar.missing := by
  intro a reference
  have ha : a = exact (delayed (asRats r) d) := by rw [← asRats_delayed, ← map_ofInt_eq]
  have hr : reference = exact (asRats r) := map_ofInt_eq r
  have hentry : ∃ i : Int, entryAt r i ≠ 0 := by
    obtain ⟨x, hx, hxne⟩ := hne
    obtain ⟨m, hm⟩ := List.mem_iff_getElem?.mp hx
    exact ⟨m, by rwa [entryAt_natCast, List.getD_eq_getElem?_getD, hm]⟩
  have hbest : bestLag a reference = d := by
    rw [ha, hr]
    exact bestLag_exact_delayed hentry henergy hfits
  refine ⟨?_, hbest, ?_⟩
  · rw [ha, hr, correlations_exact (by simp), length_asRats]
    exact List.map_congr_left fun lag _ => (correlationAt_exact _ _ lag).symm
  · rw [hbest]
    exact shiftValues_delayed Scalar.ofInt r d

/-- A short pulse that comes two places later. -/
theorem bestLag_delayed_of_pulse :
    let r : List Int := [1, -3, 2, 0, 0]
    let a : List Exact := (delayed r 2).map Scalar.ofInt
    let reference : List Exact := r.map Scalar.ofInt
    (∃ x ∈ r, x ≠ 0) ∧ (r.map (· ^ 2)).sum < 10 ^ 9 ∧ FitsDelayed r 2 ∧
      correlations a reference = (lags 5).map (correlationAt a reference) ∧
      bestLag a reference = 2 ∧
      shiftValues a (bestLag a reference)
        = [.num 1, .num (-3), .num 2, .missing, .missing] := by
  intro r a reference
  have hne : ∃ x ∈ r, x ≠ 0 := ⟨1, by decide, by decide⟩
  have henergy : (r.map (· ^ 2)).sum < 10 ^ 9 := by decide
  have hfits : FitsDelayed r 2 := by
    intro i hi
    obtain ⟨hlo, hhi⟩ := lt_length_of_entryAt_ne_zero hi
    obtain ⟨m, rfl⟩ := Int.eq_ofNat_of_zero_le hlo
    have hpulse : ∀ m < 5, entryAt r (m : Nat) ≠ 0 → m < 3 := by decide
    have hlength : r.length = 5 := rfl
    have := hpulse m (by omega) hi
    omega
  obtain ⟨hcorrelations, hbest, hshifted⟩ := bestLag_delayed hne henergy hfits
  exact ⟨hne, henergy, hfits, hcorrelations, hbest, hshifted.trans (by decide)⟩

end Integers

end StepSignal
