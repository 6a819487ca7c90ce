import Mathlib.Order.Bounds.Defs
import StepSignal.Proofs.Alignment.Correlation

/-!
# Padded correlation

Long sequences are correlated around a circle, by Fourier transforms of the sequences padded with
zeros. The circle has the least power of two of places that has one for every lag. Lags from zero on
have the places from the first one on, negative lags those up to the last one:

    place j = size - (n - j)    for the lag j - n < 0
    place j = j - n             for the lag j - n ≥ 0

At the place of a lag each value of one sequence meets what it meets at the lag, or it meets padding.
So whatever computes circular correlations, what is read from them are the direct ones, and long and
short sequences are correlated alike.
-/

namespace StepSignal

open Exact Scalar

/-! ## Around a circle -/

/-- The circular correlation of two sequences of numbers at a place. Each value of `r` meets the value
of `a` that is as many places further on, beginning again after the end. -/
def circularSum (a r : List Rat) (place : Nat) : Rat :=
  ∑ m ∈ Finset.range r.length, a.getD ((m + place) % a.length) 0 * r.getD m 0

/-- What transforms have to give to correlate sequences around a circle: the circular correlations of
any two sequences that fill it, in the order of the places. -/
def Correlates.IsCircular (transforms : Correlates Exact) : Prop :=
  ∀ (levels : Nat) (a r : List Rat), a.length = 2 ^ levels → r.length = 2 ^ levels →
    transforms.circularCorrelations levels (exact a) (exact r)
      = exact ((List.range (2 ^ levels)).map (circularSum a r))

theorem rotateLeft_eq {β : Type} {xs : List β} {s : Nat} (hs : s < xs.length) :
    xs.rotateLeft s = xs.drop s ++ xs.take s := by
  unfold List.rotateLeft
  dsimp only
  rw [Nat.mod_eq_of_lt hs]
  split
  · obtain rfl : s = 0 := by omega
    simp
  · rfl

/-- A sequence that is moved around a circle has in each place what was `place` further on. -/
theorem getD_rotateLeft {xs : List Rat} {place m : Nat} (hplace : place < xs.length)
    (hm : m < xs.length) : (xs.rotateLeft place).getD m 0 = xs.getD ((m + place) % xs.length) 0 := by
  simp only [rotateLeft_eq hplace, List.getD_eq_getElem?_getD]
  by_cases hin : m + place < xs.length
  · rw [List.getElem?_append_left (by rw [List.length_drop]; omega), List.getElem?_drop,
      Nat.mod_eq_of_lt hin, Nat.add_comm]
  · rw [List.getElem?_append_right (by rw [List.length_drop]; omega), List.length_drop,
      List.getElem?_take_of_lt (by omega), Nat.mod_eq_sub_mod (by omega), Nat.mod_eq_of_lt (by omega),
      show m - (xs.length - place) = m + place - xs.length by omega]

theorem circularCorrelationAt_exact {a r : List Rat} (hlen : a.length = r.length) {place : Nat}
    (hplace : place < a.length) :
    circularCorrelationAt (exact a) (exact r) place = num (circularSum a r place) := by
  have hrotate : (exact a).rotateLeft place = exact (a.rotateLeft place) := by
    rw [rotateLeft_eq hplace, rotateLeft_eq (by rwa [length_exact])]
    simp [exact, List.map_take, List.map_drop]
  rw [circularCorrelationAt, hrotate]
  refine (addProducts_num 0 _ _).trans (congrArg num ?_)
  rw [zero_add, sum_zipWith _ _ le_rfl, circularSum]
  refine Finset.sum_congr rfl fun m hm => ?_
  have hm := Finset.mem_range.mp hm
  rw [entryAt_natCast, entryAt_natCast, getD_rotateLeft hplace (by omega)]

/-- Exact sequences are correlated around a circle as transforms have to. -/
theorem isCircular_exact : Correlates.IsCircular inferInstance := by
  intro levels a r ha hr
  show (List.range (1 <<< levels)).map (circularCorrelationAt (exact a) (exact r)) = _
  rw [Nat.one_shiftLeft, exact_map]
  refine List.map_congr_left fun place hplace => ?_
  rw [List.mem_range, ← ha] at hplace
  exact circularCorrelationAt_exact (by rw [ha, hr]) hplace

/-! ## Places -/

section Places

variable {n size : Nat} {lag : Int}

/-- The padded length has a place for every lag. -/
theorem two_mul_le_paddedLength (n : Nat) : 2 * n ≤ paddedLength n := by
  have := Nat.lt_log2_self (n := 2 * n - 1)
  rw [paddedLength, paddedLevels, Nat.one_shiftLeft]
  omega

theorem paddedLength_eq (n : Nat) : paddedLength n = 2 ^ paddedLevels n := Nat.one_shiftLeft _

/-- The padded length is the least power of two that has a place for every lag. -/
theorem isLeast_paddedLength (hn : 1 ≤ n) :
    IsLeast {size | 2 * n ≤ size ∧ ∃ k, size = 2 ^ k} (paddedLength n) := by
  refine ⟨⟨two_mul_le_paddedLength n, _, paddedLength_eq n⟩, ?_⟩
  rintro size ⟨hsize, k, rfl⟩
  have hlevels : (2 * n - 1).log2 < k := (Nat.log2_lt (by omega)).mpr (by omega)
  rw [paddedLength_eq]
  exact Nat.pow_le_pow_right two_pos hlevels

/-- Lags from zero on have the first places, and negative lags those up to the last one. -/
theorem lagPlace_eq (hsize : 2 * n ≤ size) (hlag : lag ∈ lags n) :
    lagPlace size lag = if lag < 0 then size - lag.natAbs else lag.natAbs := by
  rw [mem_lags] at hlag
  unfold lagPlace
  split
  · rw [← Int.add_emod_left, Int.emod_eq_of_lt (by omega) (by omega)]
    omega
  · rw [Int.emod_eq_of_lt (by omega) (by omega)]
    omega

theorem lagPlace_lt (hsize : 2 * n ≤ size) (hlag : lag ∈ lags n) : lagPlace size lag < size := by
  rw [lagPlace_eq hsize hlag]
  rw [mem_lags] at hlag
  split <;> omega

end Places

/-! ## Padding -/

section Padding

variable {a r : List Rat}

/-- What a place of the padded sequence `a` has as many places further on as a lag has its place is
what `a` has there at the lag. -/
theorem getD_rightpad_lagPlace {size m : Nat} {lag : Int} (hsize : 2 * a.length ≤ size)
    (hm : m < a.length) (hlag : lag ∈ lags a.length) :
    (a.rightpad size 0).getD ((m + lagPlace size lag) % size) 0 = entryAt a (m + lag) := by
  rw [← entryAt_natCast, entryAt_rightpad, lagPlace_eq hsize hlag]
  rw [mem_lags] at hlag
  by_cases hneg : lag < 0
  · rw [if_pos hneg]
    by_cases hin : 0 ≤ (m : Int) + lag
    · rw [Nat.mod_eq_sub_mod (by omega), Nat.mod_eq_of_lt (by omega)]
      congr 1
      omega
    · -- a place in front of the sequence is one of the padding
      rw [Nat.mod_eq_of_lt (by omega), entryAt_of_length_le (by omega), entryAt_of_neg (by omega)]
  · rw [if_neg hneg, Nat.mod_eq_of_lt (by omega)]
    congr 1
    omega

/-- At the place of a lag the padded sequences have the circular correlation that the sequences have
at the lag. -/
theorem circularSum_rightpad (hlen : a.length = r.length) {size : Nat} (hsize : 2 * r.length ≤ size)
    {lag : Int} (hlag : lag ∈ lags r.length) :
    circularSum (a.rightpad size 0) (r.rightpad size 0) (lagPlace size lag)
      = correlationSum a r lag := by
  have hpadded : ∀ xs : List Rat, xs.length = r.length → (xs.rightpad size 0).length = size := by
    intro xs hxs
    rw [List.length_rightpad]
    omega
  rw [circularSum, hpadded a hlen, hpadded r rfl, correlationSum]
  -- the padding of `r` adds nothing
  refine (Finset.sum_subset (Finset.range_mono (by omega)) fun m _ hm => ?_).symm.trans
    (Finset.sum_congr rfl fun m hm => ?_)
  · have hout : (r.length : Int) ≤ m := by simpa using hm
    rw [← entryAt_natCast (r.rightpad size 0), entryAt_rightpad, entryAt_of_length_le hout, mul_zero]
  · have hm := Finset.mem_range.mp hm
    rw [getD_rightpad_lagPlace (by omega) (by omega) (hlen ▸ hlag),
      ← entryAt_natCast (r.rightpad size 0), entryAt_rightpad]

/-- Transforms that give circular correlations give the correlations at all lags. -/
theorem paddedCorrelations_exact {transforms : Correlates Exact} (h : transforms.IsCircular)
    (hlen : a.length = r.length) : @paddedCorrelations Exact _ transforms (exact a) (exact r)
      = (lags r.length).map fun lag => num (correlationSum a r lag) := by
  have hsize := two_mul_le_paddedLength r.length
  have hpadded : ∀ xs : List Rat, xs.length = r.length →
      (xs.rightpad (paddedLength r.length) 0).length = 2 ^ paddedLevels r.length := by
    intro xs hxs
    rw [List.length_rightpad, ← paddedLength_eq]
    omega
  unfold paddedCorrelations
  simp only [length_exact, hlen, exact_rightpad]
  rw [h _ _ _ (hpadded a hlen) (hpadded r rfl), ← paddedLength_eq]
  refine List.map_congr_left fun lag hlag => ?_
  have hplace := lagPlace_lt hsize hlag
  rw [← circularSum_rightpad hlen hsize hlag]
  simp [exact_map, hplace]

/-- The correlations of exact sequences are the direct ones, whatever their length. -/
theorem correlations_exact (hlen : a.length = r.length) :
    correlations (exact a) (exact r)
      = (lags r.length).map fun lag => num (correlationSum a r lag) := by
  unfold correlations
  rw [length_exact, hlen]
  split
  · exact List.map_congr_left fun lag _ => correlationAt_exact a r lag
  · exact paddedCorrelations_exact isCircular_exact hlen

/-- **Correlation around a circle is the direct one.** The circle that two sequences of length `n` are
padded to has the least power of two of places that is `2 n` or more. What transforms compute there for
the lag `j - n` they give in its place, from the front of the circle or from the end, and it is the
direct correlation at that lag. -/
theorem paddedCorrelations_direct {transforms : Correlates Exact} (h : transforms.IsCircular)
    (hne : 1 ≤ a.length) (hlen : a.length = r.length) :
    let n := a.length
    let size := paddedLength n
    let padded := @paddedCorrelations Exact _ transforms (exact a) (exact r)
    IsLeast {size | 2 * n ≤ size ∧ ∃ k, size = 2 ^ k} size ∧ padded.length = 2 * n ∧
      ∀ j < 2 * n,
        let place := if j < n then size - (n - j) else j - n
        let circular := circularSum (a.rightpad size 0) (r.rightpad size 0) place
        place < size ∧ padded[j]? = some (num circular) ∧
          correlationAt (exact a) (exact r) (j - n) = num circular ∧
          circular = correlationSum a r (j - n) := by
  intro n size padded
  have hpadded : padded = (lags r.length).map fun lag => num (correlationSum a r lag) :=
    paddedCorrelations_exact h hlen
  have hn : n = r.length := hlen
  have hsize : 2 * n ≤ size := two_mul_le_paddedLength n
  refine ⟨isLeast_paddedLength hne, by rw [hpadded, List.length_map, length_lags, ← hlen], ?_⟩
  intro j hj place circular
  have hlag : (j : Int) - n ∈ lags n := by
    rw [mem_lags]
    omega
  have hplace : lagPlace size (j - n) = place := by
    rw [lagPlace_eq hsize hlag]
    show _ = if j < n then size - (n - j) else j - n
    split <;> split <;> omega
  have hcircular : circular = correlationSum a r (j - n) := by
    rw [← circularSum_rightpad hlen (hn ▸ hsize) (hn ▸ hlag), hplace]
  refine ⟨hplace ▸ lagPlace_lt hsize hlag, ?_, ?_, hcircular⟩
  · rw [hpadded, ← hlen, List.getElem?_map, getElem?_lags hj, Option.map_some, hcircular]
  · rw [correlationAt_exact, hcircular]

/-- Sequences of four numbers fill half of a circle of eight places. The first lag has the place in the
middle, where nothing meets, and the last negative one has the last place. -/
theorem paddedCorrelations_direct_of_four :
    let a : List Rat := [1, -2, 3, 4]
    let r : List Rat := [2, 0, -1, 5]
    let padded := paddedCorrelations (exact a) (exact r)
    Correlates.IsCircular inferInstance ∧ 1 ≤ a.length ∧ a.length = r.length ∧
      IsLeast {size | 2 * 4 ≤ size ∧ ∃ k, size = 2 ^ k} 8 ∧ padded.length = 8 ∧
      padded[0]? = some (num (circularSum (a.rightpad 8 0) (r.rightpad 8 0) 4)) ∧
      correlationAt (exact a) (exact r) (-4) = num 0 ∧
      padded[3]? = some (num (circularSum (a.rightpad 8 0) (r.rightpad 8 0) 7)) ∧
      correlationAt (exact a) (exact r) (-1) = num 17 ∧
      padded = [num 0, num 5, num (-11), num 17, num 19, num (-8), num 6, num 8] := by
  intro a r padded
  have hne : 1 ≤ a.length := by decide
  have hlen : a.length = r.length := rfl
  have hsize : paddedLength a.length = 8 := by decide +kernel
  obtain ⟨hleast, hlength, hplaces⟩ := paddedCorrelations_direct isCircular_exact hne hlen
  obtain ⟨-, hfirst, -⟩ := hplaces 0 (by decide)
  obtain ⟨-, hthird, -⟩ := hplaces 3 (by decide)
  rw [hsize] at hleast hfirst hthird
  exact ⟨isCircular_exact, hne, hlen, hleast, hlength, hfirst, by decide +kernel, hthird,
    by decide +kernel, by decide +kernel⟩

end Padding

end StepSignal
