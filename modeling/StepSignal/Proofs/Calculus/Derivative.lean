import Mathlib.Algebra.Group.ForwardDiff
import Mathlib.Algebra.Polynomial.Eval.Degree
import Mathlib.Algebra.Polynomial.Degree.Lemmas
import StepSignal.Calculus.Derivative
import StepSignal.Proofs.Exact
import StepSignal.Proofs.Series

/-!
# Derivatives on evenly spaced times

Every round of a derivative turns neighbouring differences into quotients and leaves one more missing
sample at the beginning. Over times that are all `h` apart, the sample at place `i` after `k` rounds is

    (∑ j ≤ k, (-1) ^ j * k.choose j * y (i - j)) / h ^ k

as long as there are `k` samples before it. The sum is a difference of order `k`, which is zero for a
polynomial of a lower degree.
-/

namespace StepSignal

open Exact Finset

/-! ## Differences by place -/

section Places

variable {α : Type} [Scalar α]

theorem gaps_map_range' (f : Nat → α) (start length : Nat) :
    gaps ((List.range' start (length + 1)).map f)
      = (List.range' start length).map fun i => f (i + 1) - f i := by
  induction length generalizing start with
  | zero => rfl
  | succ length ih => exact congrArg (List.cons (f (start + 1) - f start)) (ih (start + 1))

/-- The difference at a place that has a place before it. -/
theorem differences_map_range (f : Nat → α) (length : Nat) :
    differences ((List.range length).map f)
      = (List.range length).map fun i => if i = 0 then Scalar.missing else f i - f (i - 1) := by
  cases length with
  | zero => rfl
  | succ length =>
    have hgaps := gaps_map_range' f 0 length
    rw [← List.range_eq_range', ← List.range_eq_range'] at hgaps
    have hfirst : (List.range (length + 1)).map f
        = f 0 :: ((List.range length).map (· + 1)).map f := by
      rw [List.range_succ_eq_map]
      rfl
    have hdifferences : differences ((List.range (length + 1)).map f)
        = Scalar.missing :: gaps ((List.range (length + 1)).map f) := by
      rw [hfirst]
      rfl
    rw [hdifferences, hgaps, List.range_succ_eq_map, List.map_cons, List.map_map, if_pos rfl]
    rfl

end Places

/-! ## Differences of a higher order -/

section Backward

variable {y : Nat → Rat} {k i : Nat}

/-- The difference of order `k` of a sequence, taken from place `i` backwards. -/
def backwardDifference (y : Nat → Rat) (k i : Nat) : Rat :=
  ∑ j ∈ range (k + 1), (-1) ^ j * k.choose j * y (i - j)

/-- Taken from the other end, it is a forward difference. -/
theorem backwardDifference_eq (h : k ≤ i) :
    backwardDifference y k i = (fwdDiff 1)^[k] y (i - k) := by
  rw [fwdDiff_iter_eq_sum_shift, ← sum_range_reflect]
  apply sum_congr rfl
  intro j hj
  have hj : j ≤ k := Nat.lt_succ_iff.mp (mem_range.mp hj)
  have hplace : i - k + (k - j) • 1 = i - j := by
    rw [smul_eq_mul, mul_one]
    omega
  rw [Nat.add_sub_cancel, hplace, Nat.sub_sub_self hj, Nat.choose_symm hj, zsmul_eq_mul]
  push_cast
  rfl

theorem backwardDifference_succ (h : k < i) :
    backwardDifference y (k + 1) i
      = backwardDifference y k i - backwardDifference y k (i - 1) := by
  have hplace : i - (k + 1) + 1 = i - k := by omega
  have hbefore : i - 1 - k = i - (k + 1) := by omega
  rw [backwardDifference_eq h, backwardDifference_eq h.le, backwardDifference_eq (by omega),
    Function.iterate_succ_apply', fwdDiff, hplace, hbefore]

/-- A difference of a higher order than the degree of a polynomial is zero. -/
theorem backwardDifference_of_degree_lt {p : Polynomial Rat} (hp : p.degree < k) (h : k ≤ i)
    {start step : Rat} (hy : ∀ j ≤ i, y j = p.eval (start + j * step)) :
    backwardDifference y k i = 0 := by
  rcases Nat.eq_zero_or_pos k with rfl | hpos
  · have hzero : p = 0 := Polynomial.degree_eq_bot.mp (Nat.WithBot.lt_zero_iff.mp hp)
    simp [backwardDifference, hy i le_rfl, hzero]
  -- in the number of the place the samples are those of a polynomial of no higher degree
  set q := p.comp (.C step * .X + .C start) with hq
  have hdegree : q.natDegree < k := by
    have hlt : p.natDegree < k := by
      by_cases hzero : p = 0
      · rwa [hzero, Polynomial.natDegree_zero]
      · exact (Polynomial.natDegree_lt_iff_degree_lt hzero).mpr hp
    calc q.natDegree
        ≤ p.natDegree * (Polynomial.C step * .X + .C start).natDegree :=
          Polynomial.natDegree_comp_le
      _ ≤ p.natDegree := mul_le_of_le_one_right' Polynomial.natDegree_linear_le
      _ < k := hlt
  have heval : ∀ j ≤ i, y j = q.eval (j : Rat) := by
    intro j hj
    rw [hy j hj, hq, Polynomial.eval_comp, Polynomial.eval_add, Polynomial.eval_C_mul,
      Polynomial.eval_X, Polynomial.eval_C, add_comm, mul_comm]
  have hzero := congrFun (Polynomial.fwdDiff_iter_eq_zero_of_degree_lt hdegree)
    ((i - k : Nat) : Rat)
  rw [fwdDiff_iter_eq_sum_shift] at hzero
  rw [backwardDifference_eq h, fwdDiff_iter_eq_sum_shift]
  refine Eq.trans ?_ hzero
  apply sum_congr rfl
  intro j hj
  have hj : j ≤ k := Nat.lt_succ_iff.mp (mem_range.mp hj)
  rw [heval _ (by rw [smul_eq_mul]; omega)]
  push_cast
  rw [smul_eq_mul, mul_one, nsmul_eq_mul, mul_one]

end Backward

/-! ## Rounds of quotients -/

section Rounds

variable {h : Rat} {y : Nat → Rat} {length : Nat}

/-- The sample at a place after some rounds of quotients over times that are `h` apart. -/
def quotientAt (y : Nat → Rat) (h : Rat) (rounds i : Nat) : Exact :=
  if i < rounds then .missing else num (backwardDifference y rounds i / h ^ rounds)

/-- The differences of times that are `h` apart. -/
def evenDifferences (h : Rat) (length : Nat) : List Exact :=
  (List.range length).map fun i => if i = 0 then .missing else num h

theorem quotientAt_zero : quotientAt y h 0 = fun i => num (y i) := by
  funext i
  simp [quotientAt, backwardDifference]

/-- One more round at a place. -/
theorem quotientAt_succ (hpos : 0 < h) (rounds i : Nat) :
    (if i = 0 then .missing else quotientAt y h rounds i - quotientAt y h rounds (i - 1))
        / (if i = 0 then .missing else num h)
      = quotientAt y h (rounds + 1) i := by
  rcases Nat.lt_or_ge rounds i with hlt | hge
  · rw [if_neg (Nat.ne_zero_of_lt hlt), if_neg (Nat.ne_zero_of_lt hlt), quotientAt, quotientAt,
      quotientAt, if_neg hlt.not_gt, if_neg (by omega), if_neg (by omega), num_sub_num,
      num_div_num _ hpos.ne', backwardDifference_succ hlt, ← sub_div, div_div, pow_succ]
  · -- the sample before the place is still missing, or there is none
    have hmissing : quotientAt y h (rounds + 1) i = .missing := if_pos (by omega)
    rw [hmissing]
    rcases Nat.eq_zero_or_pos i with rfl | hi
    · rw [if_pos rfl, missing_div]
    · have hbefore : quotientAt y h rounds (i - 1) = .missing := if_pos (by omega)
      rw [if_neg hi.ne', hbefore, sub_missing, missing_div]

theorem quotients_quotientAt (hpos : 0 < h) (length order rounds : Nat) :
    quotients (evenDifferences h length) order ((List.range length).map (quotientAt y h rounds))
      = (List.range length).map (quotientAt y h (rounds + order)) := by
  induction order generalizing rounds with
  | zero => rfl
  | succ order ih =>
    have hround : (differences ((List.range length).map (quotientAt y h rounds))).zipWith (· / ·)
        (evenDifferences h length) = (List.range length).map (quotientAt y h (rounds + 1)) := by
      rw [differences_map_range, evenDifferences, List.zipWith_map, List.zipWith_self]
      apply List.map_congr_left
      intro i _
      exact quotientAt_succ hpos rounds i
    rw [quotients, hround, ih, Nat.add_right_comm, Nat.add_assoc]

end Rounds

/-! ## Series -/

namespace Series

variable {s : Series Exact} {h : Rat} {ys : List Rat}

/-- Neighbouring times of a series are all `h` apart. -/
def EvenlySpaced (s : Series Exact) (h : Rat) : Prop :=
  ∀ (i : Nat) (a b : Rat), s.times[i]? = some (num a) → s.times[i + 1]? = some (num b) → b - a = h

/-- The times of an evenly spaced series, counted from the first one. -/
theorem Valid.exists_start (hs : s.Valid) (hspaced : s.EvenlySpaced h) :
    ∃ start : Rat, s.times = (List.range s.length).map fun i : Nat => num (start + i * h) := by
  obtain ⟨ts, hts⟩ := exists_eq_exact fun _ ht => Ordered.isMissing_of_mem hs ht
  have htime : ∀ i (hi : i < ts.length), s.times[i]? = some (num ts[i]) := by
    intro i hi
    rw [hts, exact, List.getElem?_map, List.getElem?_eq_getElem hi]
    rfl
  have hplace : ∀ i (hi : i < ts.length), ts[i] = ts.headD 0 + i * h := by
    intro i
    induction i with
    | zero =>
      intro hi
      rw [Nat.cast_zero, zero_mul, add_zero, List.headD_eq_head?_getD, List.head?_eq_getElem?,
        List.getElem?_eq_getElem hi]
      rfl
    | succ i ih =>
      intro hi
      have hgap := hspaced i _ _ (htime i (by omega)) (htime (i + 1) hi)
      rw [eq_add_of_sub_eq' hgap, ih (by omega)]
      push_cast
      ring
  refine ⟨ts.headD 0, ?_⟩
  have hlength : s.length = ts.length := by rw [← length_times, hts, length_exact]
  rw [hts, hlength, exact]
  apply List.ext_getElem
  · rw [List.length_map, List.length_map, List.length_range]
  · intro i hi _
    rw [List.getElem_map, List.getElem_map, List.getElem_range, hplace i (by simpa using hi)]

/-- The samples of a polynomial, by their places. -/
theorem Valid.exists_polynomial_samples (hs : s.Valid) (hspaced : s.EvenlySpaced h) {y : Nat → Rat}
    (hvalues : s.values = (List.range s.length).map fun i => num (y i)) {p : Polynomial Rat}
    (hpoints : ∀ row ∈ s.samples, ∃ t, row.time = num t ∧ row.value = num (p.eval t)) :
    ∃ start : Rat, ∀ i < s.length, y i = p.eval (start + i * h) := by
  obtain ⟨start, htimes⟩ := hs.exists_start hspaced
  refine ⟨start, ?_⟩
  intro i hi
  obtain ⟨row, hrow⟩ : ∃ row, s.samples[i]? = some row := ⟨_, List.getElem?_eq_getElem hi⟩
  have htime : s.times[i]? = some (num (start + i * h)) := by
    rw [htimes, List.getElem?_map, List.getElem?_range hi]
    rfl
  have hvalue : s.values[i]? = some (num (y i)) := by
    rw [hvalues, List.getElem?_map, List.getElem?_range hi]
    rfl
  obtain ⟨t, ht, hv⟩ := hpoints _ (List.mem_of_getElem? hrow)
  rw [times, Stamped.times, List.getElem?_map, hrow, Option.map_some, ht] at htime
  rw [values, List.getElem?_map, hrow, Option.map_some, hv] at hvalue
  rw [← Exact.num.inj (Option.some.inj htime), Exact.num.inj (Option.some.inj hvalue)]

/-- The samples of a derivative over evenly spaced times. -/
theorem Valid.exists_derivative (hs : s.Valid) {y : Nat → Rat}
    (hvalues : s.values = (List.range s.length).map fun i => num (y i)) (hpos : 0 < h)
    (hspaced : s.EvenlySpaced h) (order : Nat) :
    ∃ out, s.derivative none order = .ok out ∧ out.name = s.name ∧ out.times = s.times ∧
      out.values = (List.range s.length).map (quotientAt y h order) := by
  obtain ⟨start, htimes⟩ := hs.exists_start hspaced
  have hgaps : differences s.times = evenDifferences h s.length := by
    rw [htimes, differences_map_range, evenDifferences]
    apply List.map_congr_left
    intro i _
    rcases i with - | i
    · rfl
    · rw [if_neg i.succ_ne_zero, if_neg i.succ_ne_zero, Nat.add_sub_cancel, num_sub_num]
      push_cast
      congr 1
      ring
  have hquotients : quotients (differences s.times) order s.values
      = (List.range s.length).map (quotientAt y h order) := by
    rw [hgaps, hvalues, ← quotientAt_zero, quotients_quotientAt hpos, Nat.zero_add]
  have hderivative : s.derivative none order
      = ofValues s.name s.times ((List.range s.length).map (quotientAt y h order)) := by
    rw [← hquotients]
    rfl
  rw [hderivative]
  exact exists_ofValues s.name (by simp) hs

/-- **Higher derivatives are binomial differences.** A series without missing samples, over exact
scalars and times that are all `h` apart, has derivatives of every order. They keep its name and its
times. As many samples as the order says are missing at the beginning, if there are as many, and every
other one is a binomial sum of samples divided by a power of `h`. So the derivatives of a polynomial
of a lower degree are zero. -/
theorem derivative_binomial (hs : s.Valid) (hvalues : s.values = exact ys) (hpos : 0 < h)
    (hspaced : s.EvenlySpaced h) (order : Nat) :
    ∃ out, s.derivative none order = .ok out ∧ out.name = s.name ∧ out.times = s.times ∧
      (∀ i < min order s.length, out.values[i]? = some .missing) ∧
      (∀ i < s.length, order ≤ i → out.values[i]? = some (num
        ((∑ j ∈ range (order + 1), (-1) ^ j * order.choose j * ys.getD (i - j) 0) / h ^ order))) ∧
      ∀ p : Polynomial Rat, p.degree < order →
        (∀ row ∈ s.samples, ∃ t, row.time = num t ∧ row.value = num (p.eval t)) →
        ∀ i < s.length, order ≤ i → out.values[i]? = some (num 0) := by
  have hlength : s.length = ys.length := by rw [← length_values, hvalues, length_exact]
  have hnumbers : s.values = (List.range s.length).map fun i => num (ys.getD i 0) := by
    rw [hvalues, hlength]
    apply List.ext_getElem
    · simp
    · intro i hi _
      have hi : i < ys.length := by simpa using hi
      simp [exact, hi]
  obtain ⟨out, hout, hname, htimes, houtput⟩ := hs.exists_derivative hnumbers hpos hspaced order
  have hsample : ∀ i < s.length, out.values[i]? = some (quotientAt (ys.getD · 0) h order i) := by
    intro i hi
    rw [houtput, List.getElem?_map, List.getElem?_range hi]
    rfl
  refine ⟨out, hout, hname, htimes, ?_, ?_, ?_⟩
  · intro i hi
    rw [hsample i (by omega), quotientAt, if_pos (by omega)]
  · intro i hi horder
    rw [hsample i hi, quotientAt, if_neg horder.not_gt]
    rfl
  · intro p hp hpoints i hi horder
    obtain ⟨start, hstart⟩ := hs.exists_polynomial_samples hspaced hnumbers hpoints
    have hzero := backwardDifference_of_degree_lt hp horder fun j hj => hstart j (by omega)
    rw [hsample i hi, quotientAt, if_neg horder.not_gt, hzero, zero_div]

/-- Four squares, of which the third differences are zero. -/
theorem derivative_binomial_of_squares :
    let s : Series Exact :=
      ⟨"s", [⟨num 0, num 0⟩, ⟨num 2, num 4⟩, ⟨num 4, num 16⟩, ⟨num 6, num 36⟩]⟩
    let ys : List Rat := [0, 4, 16, 36]
    let p : Polynomial Rat := .X ^ 2
    (s.Valid ∧ s.values = exact ys ∧ (0 : Rat) < 2 ∧ s.EvenlySpaced 2 ∧ p.degree < (3 : Nat) ∧
        ∀ row ∈ s.samples, ∃ t, row.time = num t ∧ row.value = num (p.eval t)) ∧
      ∃ out, s.derivative none 3 = .ok out ∧ out.name = s.name ∧ out.times = s.times ∧
        (∀ i < min 3 s.length, out.values[i]? = some .missing) ∧
        out.values[3]? = some (num ((∑ j ∈ range (3 + 1),
          (-1) ^ j * Nat.choose 3 j * ys.getD (3 - j) 0) / 2 ^ 3)) ∧
        out.values[3]? = some (num 0) := by
  intro s ys p
  have hs : s.Valid := checkIndex_eq_ok.mp rfl
  have hvalues : s.values = exact ys := rfl
  have hspaced : s.EvenlySpaced 2 := by
    intro i a b ha hb
    rcases i with - | - | - | i
    · obtain ⟨rfl, rfl⟩ : 0 = a ∧ 2 = b := by simpa [s, times] using And.intro ha hb
      norm_num
    · obtain ⟨rfl, rfl⟩ : 2 = a ∧ 4 = b := by simpa [s, times] using And.intro ha hb
      norm_num
    · obtain ⟨rfl, rfl⟩ : 4 = a ∧ 6 = b := by simpa [s, times] using And.intro ha hb
      norm_num
    · cases hb
  have hdegree : p.degree < (3 : Nat) := by
    rw [Polynomial.degree_X_pow]
    exact Nat.cast_lt.mpr (by decide)
  have hpoints : ∀ row ∈ s.samples, ∃ t, row.time = num t ∧ row.value = num (p.eval t) := by
    intro row hrow
    simp only [s, List.mem_cons, List.not_mem_nil, or_false] at hrow
    rcases hrow with rfl | rfl | rfl | rfl <;> refine ⟨_, rfl, ?_⟩ <;> norm_num [p]
  refine ⟨⟨hs, hvalues, two_pos, hspaced, hdegree, hpoints⟩, ?_⟩
  obtain ⟨out, hout, hname, htimes, hmissing, hsum, hzero⟩ :=
    derivative_binomial hs hvalues two_pos hspaced 3
  exact ⟨out, hout, hname, htimes, hmissing, hsum 3 (by decide) le_rfl,
    hzero p hdegree hpoints 3 (by decide) le_rfl⟩

end Series

end StepSignal
