import Mathlib.Algebra.BigOperators.Group.Finset.Basic
import Mathlib.Algebra.BigOperators.Intervals
import Mathlib.Tactic.Ring
import StepSignal.Proofs.Alignment.Lag
import StepSignal.Proofs.Exact

/-!
# Correlation in exact arithmetic

Exact sequences are correlated at a lag by a sum over the places of one of them, where the other counts
as zero outside of its own places.
-/

namespace StepSignal

open Exact Scalar

/-! ## Sequences -/

/-- The value at a place of a sequence that is zero outside of its places. -/
def entryAt {R : Type} [Zero R] (xs : List R) (i : Int) : R :=
  if 0 ≤ i then xs.getD i.toNat 0 else 0

section EntryAt

variable {R : Type} [Zero R] {xs : List R} {i : Int}

@[simp] theorem entryAt_natCast (xs : List R) (m : Nat) : entryAt xs m = xs.getD m 0 := by
  simp [entryAt]

theorem entryAt_of_neg (h : i < 0) : entryAt xs i = 0 := if_neg (by omega)

theorem entryAt_of_length_le (h : xs.length ≤ i) : entryAt xs i = 0 := by
  unfold entryAt
  split
  · exact List.getD_eq_default _ _ (by omega)
  · rfl

/-- Only places of a sequence have a value that is not zero. -/
theorem lt_length_of_entryAt_ne_zero (h : entryAt xs i ≠ 0) : 0 ≤ i ∧ i < xs.length := by
  constructor
  · by_contra hneg
    exact h (entryAt_of_neg (by omega))
  · by_contra hle
    exact h (entryAt_of_length_le (by omega))

theorem entryAt_map {S : Type} [Zero S] {f : R → S} (hf : f 0 = 0) (xs : List R) (i : Int) :
    entryAt (xs.map f) i = f (entryAt xs i) := by
  unfold entryAt
  split
  · rw [← hf, List.getD_map]
  · exact hf.symm

theorem entryAt_drop (xs : List R) (k m : Nat) : entryAt (xs.drop k) m = entryAt xs (m + k) := by
  rw [← Nat.cast_add, entryAt_natCast, entryAt_natCast, Nat.add_comm, List.getD_eq_getElem?_getD,
    List.getD_eq_getElem?_getD, List.getElem?_drop]

theorem entryAt_rightpad (xs : List R) (size : Nat) (i : Int) :
    entryAt (xs.rightpad size 0) i = entryAt xs i := by
  unfold entryAt
  split
  · rw [List.rightpad]
    rcases Nat.lt_or_ge i.toNat xs.length with h | h
    · rw [List.getD_append _ _ _ _ h]
    · rw [List.getD_append_right _ _ _ _ h, List.getD_eq_default _ _ h, List.getD_eq_getElem?_getD,
        List.getElem?_replicate]
      split <;> rfl
  · rfl

end EntryAt

/-! ## Sums of products -/

/-- The correlation of two sequences at a lag. -/
def correlationSum (a r : List Rat) (lag : Int) : Rat :=
  ∑ m ∈ Finset.range r.length, entryAt a (m + lag) * entryAt r m

theorem addProducts_num (total : Rat) (xs ys : List Rat) :
    addProducts (num total) (exact xs) (exact ys)
      = num (total + (List.zipWith (· * ·) xs ys).sum) := by
  induction xs generalizing total ys with
  | nil => simp [exact, addProducts]
  | cons x xs ih =>
    rcases ys with - | ⟨y, ys⟩
    · simp [exact, addProducts]
    · have hnext := ih (total + x * y) ys
      rw [List.zipWith_cons_cons, List.sum_cons, ← add_assoc, ← hnext]
      rfl

/-- Products of the values in the same places, added up over at least the places of the second
sequence. -/
theorem sum_zipWith {R : Type} [NonUnitalNonAssocSemiring R] (xs ys : List R) {n : Nat}
    (hn : ys.length ≤ n) :
    (List.zipWith (· * ·) xs ys).sum
      = ∑ m ∈ Finset.range n, entryAt xs (m : Nat) * entryAt ys (m : Nat) := by
  simp only [entryAt_natCast]
  induction ys generalizing xs n with
  | nil => simp
  | cons y ys ih =>
    rcases n with - | n
    · cases hn
    rw [Finset.sum_range_succ']
    rcases xs with - | ⟨x, xs⟩
    · simp
    · have hrest := ih xs (Nat.le_of_succ_le_succ hn)
      simp only [List.zipWith_cons_cons, List.sum_cons, List.getD_cons_succ, List.getD_cons_zero,
        ← hrest, add_comm]

/-- At every lag the direct correlation is the sum. -/
theorem correlationAt_exact (a r : List Rat) (lag : Int) :
    correlationAt (exact a) (exact r) lag = num (correlationSum a r lag) := by
  have hdrop : ∀ (xs : List Rat) (k : Nat), (exact xs).drop k = exact (xs.drop k) := fun xs k =>
    List.map_drop.symm
  rw [correlationAt, hdrop, hdrop]
  refine (addProducts_num 0 _ _).trans (congrArg num ?_)
  rw [zero_add, correlationSum]
  rcases Int.le_total 0 lag with h | h
  · obtain ⟨k, rfl⟩ := Int.eq_ofNat_of_zero_le h
    rw [show (-(k : Int)).toNat = 0 by omega, Int.toNat_natCast, List.drop_zero,
      sum_zipWith _ _ le_rfl]
    exact Finset.sum_congr rfl fun m _ => by rw [entryAt_drop]
  · obtain ⟨k, hk⟩ := Int.eq_ofNat_of_zero_le (Int.neg_nonneg_of_nonpos h)
    obtain rfl : lag = -(k : Int) := by omega
    rw [show (-(k : Int)).toNat = 0 by omega, Int.neg_neg, Int.toNat_natCast, List.drop_zero,
      sum_zipWith _ _ (show (r.drop k).length ≤ r.length by simp)]
    -- the places of `r` before `k` meet nothing, and beyond its end there is nothing to meet
    have hmore : ∑ m ∈ Finset.range (k + r.length), entryAt a (m + -(k : Int)) * entryAt r (m : Nat)
        = ∑ m ∈ Finset.range r.length, entryAt a (m + -(k : Int)) * entryAt r (m : Nat) := by
      refine (Finset.sum_subset (Finset.range_mono (by omega)) fun m _ hm => ?_).symm
      have hout : (r.length : Int) ≤ m := by simpa using hm
      rw [entryAt_of_length_le hout, mul_zero]
    have hbefore : ∑ m ∈ Finset.range k, entryAt a (m + -(k : Int)) * entryAt r (m : Nat) = 0 := by
      refine Finset.sum_eq_zero fun m hm => ?_
      rw [entryAt_of_neg (by have := Finset.mem_range.mp hm; omega), zero_mul]
    rw [← hmore, Finset.sum_range_add, hbefore, zero_add]
    refine Finset.sum_congr rfl fun m _ => ?_
    rw [entryAt_drop, Nat.cast_add, add_comm (k : Int), Int.add_neg_cancel_right]

end StepSignal
