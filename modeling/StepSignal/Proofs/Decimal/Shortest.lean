import StepSignal.Proofs.Decimal.Nearest

/-!
# The shortest decimal reads back

Every decimal that `shortest` can give lies in the interval of its double: a point of a grid is taken
only when it reads back, and when no grid has such a point, the decimal is the double itself.
-/

namespace StepSignal.Decimal

variable {m c : Nat} {q e : Int} {tie : Tie}

/-! ## Grids -/

/-- A point of a grid reads back when the decimal does. -/
theorem reads_grid_iff (hm : 0 < m) (q e : Int) (c : Nat) :
    (grid m q e).reads c = true ↔ ReadsAs m q (c * 10 ^ e) := by
  have hgap : gapBelow m q ≤ 4 * m := (gapBelow_le m q).trans (by omega)
  have hten : (10 : ℚ) ≠ 0 := by norm_num
  -- the double, its interval and the step, all in one unit
  generalize hscale : Nat.pow 10 (-e).toNat <<< (q - 2).toNat = scale
  have hpos : (0 : ℚ) < scale := by
    rw [← hscale, Nat.shiftLeft_eq]
    exact_mod_cast Nat.mul_pos (Nat.pow_pos (by decide)) (Nat.two_pow_pos _)
  have hlow : ((grid m q e).low : ℚ) = (4 * m - gapBelow m q) * scale := by
    have heq : (grid m q e).low = (4 * m - gapBelow m q) * scale := by rw [← hscale]; rfl
    rw [heq]
    push_cast [Nat.cast_sub hgap]
    rfl
  have hhigh : ((grid m q e).high : ℚ) = (4 * m + 2) * scale := by
    have heq : (grid m q e).high = (4 * m + 2) * scale := by rw [← hscale]; rfl
    rw [heq]
    push_cast
    rfl
  have hstep : (c * (grid m q e).step : ℚ) = c * 10 ^ e / 2 ^ (q - 2) * scale := by
    have hneg : -(q - 2) = 2 - q := by omega
    have h₁ : (10 : ℚ) ^ (-e).toNat ≠ 0 := pow_ne_zero _ hten
    have h₂ : (2 : ℚ) ^ (q - 2).toNat ≠ 0 := pow_ne_zero _ two_ne_zero
    have h₃ : (2 : ℚ) ^ (2 - q).toNat ≠ 0 := pow_ne_zero _ two_ne_zero
    rw [zpow_eq_div hten e, zpow_eq_div two_ne_zero (q - 2), hneg, ← hscale]
    simp only [grid, Nat.shiftLeft_eq, Nat.pow_eq, Nat.cast_mul, Nat.cast_pow, Nat.cast_ofNat]
    field_simp
  have hle : ∀ x y : Nat, x ≤ y ↔ (x : ℚ) ≤ y := fun _ _ => Nat.cast_le.symm
  have hlt : ∀ x y : Nat, x < y ↔ (x : ℚ) < y := fun _ _ => Nat.cast_lt.symm
  have hclosed : (grid m q e).closed = decide (m % 2 = 0) := rfl
  rw [Grid.reads, hclosed, ReadsAs, InInterval]
  by_cases heven : m % 2 = 0
  · rw [if_pos (decide_eq_true heven), if_pos heven, Bool.and_eq_true, decide_eq_true_eq,
      decide_eq_true_eq, hle, hle, Nat.cast_mul, hlow, hhigh, hstep,
      mul_le_mul_iff_left₀ hpos, mul_le_mul_iff_left₀ hpos]
  · rw [if_neg (by simpa using heven), if_neg heven, Bool.and_eq_true, decide_eq_true_eq,
      decide_eq_true_eq, hlt, hlt, Nat.cast_mul, hlow, hhigh, hstep,
      mul_lt_mul_iff_left₀ hpos, mul_lt_mul_iff_left₀ hpos]

/-- A point that is taken reads back. -/
theorem reads_of_hit {g : Grid} (h : g.hit tie = some c) : g.reads c = true := by
  simp only [Grid.hit] at h
  generalize g.value / g.step = low at h
  split at h
  · cases h
  · obtain rfl := Option.some.inj h
    assumption
  · obtain rfl := Option.some.inj h
    assumption
  · rename_i hlow hhigh
    -- both points read back, so that either may be the closer one
    have hboth : c = low ∨ c = low + 1 := by
      split at h
      · exact .inl (Option.some.inj h).symm
      · exact .inr (Option.some.inj h).symm
      · exact .inr (Option.some.inj h).symm
      · split at h
        · exact .inl (Option.some.inj h).symm
        · exact .inr (Option.some.inj h).symm
    rcases hboth with rfl | rfl
    · exact hlow
    · exact hhigh

/-! ## The shortest decimal -/

/-- The double itself as a decimal. -/
theorem value_exact (m : Nat) (q : Int) :
    (Digits.mk ((m * Nat.pow 5 (-q).toNat) <<< q.toNat) (-((-q).toNat : Int))).value =
      m * 2 ^ q := by
  have hten : (10 : ℚ) ^ (-q).toNat = 5 ^ (-q).toNat * 2 ^ (-q).toNat := by
    rw [← mul_pow]
    norm_num
  have hfive : (5 : ℚ) ^ (-q).toNat ≠ 0 := pow_ne_zero _ (by norm_num)
  have htwo : (2 : ℚ) ^ (-q).toNat ≠ 0 := pow_ne_zero _ two_ne_zero
  rw [Digits.value, zpow_neg, zpow_natCast, hten, zpow_eq_div two_ne_zero q]
  simp only [Nat.shiftLeft_eq, Nat.pow_eq, Nat.cast_mul, Nat.cast_pow, Nat.cast_ofNat]
  field_simp

/-- **The shortest decimal reads back.** -/
theorem readsAs_shortest (tie : Tie) (hm : 0 < m) (q : Int) :
    ReadsAs m q (shortest tie m q).value := by
  rw [shortest]
  generalize hfound : (List.range 20).findSome? _ = found
  rcases found with - | d
  · rw [Option.getD_none, value_exact]
    exact readsAs_self m q
  · obtain ⟨k, -, hk⟩ := List.exists_of_findSome?_eq_some hfound
    obtain ⟨c, hc, rfl⟩ := Option.map_eq_some_iff.mp hk
    exact (reads_grid_iff hm q _ c).mp (reads_of_hit hc)

end StepSignal.Decimal
