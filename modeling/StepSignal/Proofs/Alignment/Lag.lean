import Mathlib.Data.List.GetD
import Mathlib.Data.List.Induction
import StepSignal.Alignment

/-!
# The best lag

The lags of two sequences of length `n` go from `-n` to `n - 1`, and each has its place among the
correlations. The scan over them keeps the smallest lag that reaches the threshold so far, so in the
end no lag that reaches it is smaller. Moving a sequence by a lag puts the value at `i + lag` in the
place `i`.
-/

namespace StepSignal

open Scalar

variable {α : Type} [Scalar α]

/-! ## Lags -/

@[simp] theorem length_lags (n : Nat) : (lags n).length = 2 * n := by simp [lags]

theorem getElem?_lags {n j : Nat} (hj : j < 2 * n) : (lags n)[j]? = some ((j : Int) - n) := by
  simp [lags, hj]

theorem mem_lags {n : Nat} {lag : Int} : lag ∈ lags n ↔ -n ≤ lag ∧ lag < n := by
  simp only [lags, List.mem_map, List.mem_range]
  constructor
  · rintro ⟨j, hj, rfl⟩
    omega
  · rintro ⟨hlo, hhi⟩
    exact ⟨(lag + n).toNat, by omega, by omega⟩

/-- There is one correlation for every lag. -/
theorem length_correlations [Correlates α] (a r : List α) :
    (correlations a r).length = 2 * a.length := by
  unfold correlations paddedCorrelations
  split <;> simp

/-! ## The scan -/

/-- What a scan for the smallest lag that reaches a threshold finds: none if no lag reaches it, else
one that no other lag that reaches it is smaller than. -/
def IsSmallest (threshold : α) (lagged : List (Int × α)) : Option Int → Prop
  | none => ∀ p ∈ lagged, le threshold p.2 = false
  | some lag => (∃ p ∈ lagged, p.1 = lag ∧ le threshold p.2 = true) ∧
      ∀ p ∈ lagged, le threshold p.2 = true → lag.natAbs ≤ p.1.natAbs

/-- The next lag is taken if it reaches the threshold and is smaller than what was found before. -/
theorem IsSmallest.step {threshold : α} {scanned : List (Int × α)} {best : Option Int}
    (h : IsSmallest threshold scanned best) (p : Int × α) :
    IsSmallest threshold (scanned ++ [p])
      (if le threshold p.2 && best.all (p.1.natAbs < ·.natAbs) then some p.1 else best) := by
  have hmem : p ∈ scanned ++ [p] := List.mem_append_right _ List.mem_cons_self
  cases best with
  | none =>
    cases hreach : le threshold p.2 with
    | false => exact List.forall_mem_append.mpr ⟨h, List.forall_mem_singleton.mpr hreach⟩
    | true =>
      refine ⟨⟨p, hmem, rfl, hreach⟩, List.forall_mem_append.mpr ⟨fun q hq hle => ?_, by simp⟩⟩
      rw [h q hq] at hle
      cases hle
  | some lag =>
    obtain ⟨⟨q, hq, hlag, hle⟩, hsmallest⟩ := h
    have hkept : ∃ q ∈ scanned ++ [p], q.1 = lag ∧ le threshold q.2 = true :=
      ⟨q, List.mem_append_left _ hq, hlag, hle⟩
    cases hreach : le threshold p.2 with
    | false =>
      refine ⟨hkept, List.forall_mem_append.mpr ⟨hsmallest, List.forall_mem_singleton.mpr ?_⟩⟩
      rw [hreach]
      exact nofun
    | true =>
      by_cases hlt : p.1.natAbs < lag.natAbs
      · rw [Option.all_some, decide_eq_true hlt]
        refine ⟨⟨p, hmem, rfl, hreach⟩, List.forall_mem_append.mpr ⟨fun q hq hle => ?_, by simp⟩⟩
        exact Nat.le_trans (Nat.le_of_lt hlt) (hsmallest q hq hle)
      · rw [Option.all_some, decide_eq_false hlt]
        exact ⟨hkept, List.forall_mem_append.mpr
          ⟨hsmallest, List.forall_mem_singleton.mpr fun _ => Nat.not_lt.mp hlt⟩⟩

theorem isSmallest_smallestLag (threshold : α) (lagged : List (Int × α)) :
    IsSmallest threshold lagged (smallestLag threshold lagged) := by
  induction lagged using List.reverseRecOn with
  | nil => exact nofun
  | append_singleton scanned p ih =>
    have hstep := ih.step p
    unfold smallestLag at hstep ⊢
    rwa [List.foldl_append, List.foldl_cons, List.foldl_nil]

/-! ## The best lag -/

section BestLag

variable [Correlates α] {a r : List α}

/-- The pairs of lags and correlations are those in the same places. -/
theorem mem_lagged {p : Int × α} : p ∈ (lags a.length).zip (correlations a r) ↔
    ∃ (j : Nat) (c : α), (correlations a r)[j]? = some c ∧ p = ((j : Int) - a.length, c) := by
  have hlag : ∀ {j : Nat} {c : α}, (correlations a r)[j]? = some c →
      (lags a.length)[j]? = some ((j : Int) - a.length) := fun h => by
    have hlt := (List.getElem?_eq_some_iff.mp h).1
    exact getElem?_lags (by rwa [length_correlations] at hlt)
  rw [List.mem_iff_getElem?]
  constructor
  · rintro ⟨j, hj⟩
    obtain ⟨hlag', hc⟩ := List.getElem?_zip_eq_some.mp hj
    exact ⟨j, p.2, hc, Prod.ext (Option.some.inj (hlag'.symm.trans (hlag hc))) rfl⟩
  · rintro ⟨j, c, hc, rfl⟩
    exact ⟨j, List.getElem?_zip_eq_some.mpr ⟨hlag hc, hc⟩⟩

/-- The best lag reaches the threshold and is the smallest that does, unless no lag does and it is
zero. -/
theorem bestLag_cases (a r : List α) :
    (bestLag a r = 0 ∧ ∀ c ∈ correlations a r, le (tieThreshold (correlations a r)) c = false) ∨
    (∃ (j : Nat) (c : α), (correlations a r)[j]? = some c ∧
      le (tieThreshold (correlations a r)) c = true ∧ bestLag a r = (j : Int) - a.length) ∧
    ∀ (j : Nat) (c : α), (correlations a r)[j]? = some c →
      le (tieThreshold (correlations a r)) c = true →
        (bestLag a r).natAbs ≤ ((j : Int) - a.length).natAbs := by
  have h := isSmallest_smallestLag (tieThreshold (correlations a r))
    ((lags a.length).zip (correlations a r))
  unfold bestLag
  dsimp only
  cases hfound : smallestLag (tieThreshold (correlations a r))
    ((lags a.length).zip (correlations a r)) with
  | none =>
    rw [hfound] at h
    refine .inl ⟨rfl, fun c hc => ?_⟩
    obtain ⟨j, hj⟩ := List.mem_iff_getElem?.mp hc
    exact h _ (mem_lagged.mpr ⟨j, c, hj, rfl⟩)
  | some lag =>
    rw [hfound] at h
    obtain ⟨⟨p, hp, rfl, hle⟩, hsmallest⟩ := h
    obtain ⟨j, c, hc, rfl⟩ := mem_lagged.mp hp
    exact .inr ⟨⟨j, c, hc, hle, rfl⟩, fun i c' hc' hle' =>
      hsmallest _ (mem_lagged.mpr ⟨i, c', hc', rfl⟩) hle'⟩

end BestLag

/-! ## Moving by a lag -/

@[simp] theorem length_shiftValues (values : List α) (shift : Int) :
    (shiftValues values shift).length = values.length := by
  unfold shiftValues
  dsimp only
  split
  · rw [List.length_append, List.length_drop, List.length_replicate]
    omega
  · rw [List.length_append, List.length_take, List.length_replicate]
    omega

/-- Moving by a lag puts the value `shift` places further on in every place, if there is one. -/
theorem getElem?_shiftValues (values : List α) (shift : Int) {i : Nat} (hi : i < values.length) :
    (shiftValues values shift)[i]? = some (if 0 ≤ i + shift ∧ i + shift < values.length then
      values.getD (i + shift).toNat missing else missing) := by
  unfold shiftValues
  dsimp only
  by_cases hshift : 0 ≤ shift
  · obtain ⟨k, rfl⟩ := Int.eq_ofNat_of_zero_le hshift
    rw [if_pos hshift, Int.toNat_natCast, Int.natAbs_natCast]
    by_cases hin : i + k < values.length
    · rw [if_pos (by omega), List.getElem?_append_left (by rw [List.length_drop]; omega),
        List.getElem?_drop, show ((i : Int) + k).toNat = k + i by omega,
        List.getD_eq_getElem _ _ (by omega), List.getElem?_eq_getElem (by omega)]
    · rw [if_neg (by omega), List.getElem?_append_right (by rw [List.length_drop]; omega),
        List.getElem?_replicate, if_pos (by rw [List.length_drop]; omega)]
  · rw [if_neg hshift]
    by_cases hin : shift.natAbs ≤ i
    · rw [if_pos (by omega), List.getElem?_append_right (by rw [List.length_replicate]; omega),
        List.length_replicate, List.getElem?_take_of_lt (by omega),
        show i - min shift.natAbs values.length = (i + shift).toNat by omega,
        List.getD_eq_getElem _ _ (by omega), List.getElem?_eq_getElem (by omega)]
    · rw [if_neg (by omega), List.getElem?_append_left (by rw [List.length_replicate]; omega),
        List.getElem?_replicate, if_pos (by omega)]

end StepSignal
