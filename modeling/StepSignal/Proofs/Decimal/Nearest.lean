import StepSignal.Decimal.Nearest
import StepSignal.Proofs.Binary64.Neighbours

/-!
# A decimal inside the interval of a double reads as that double

A finite double that is not zero is `m * 2 ^ q` with a significand `m`. The decimals that read as it
make up an interval around it, which `ReadsAs` describes in quarters of a unit. `nearest` divides a
decimal by the power of two that gives the quotient 53 bits and rounds. Below a power of two that is
another power than the one of the double, and the quotient is rounded up to `2 ^ 53`, whose carry
makes the bits those of the double all the same.
-/

namespace StepSignal.Decimal

variable {m num den a b k : Nat} {q e : Int} {u v : ℚ}

/-- The number that a decimal stands for. -/
def Digits.value (d : Digits) : ℚ := d.digits * 10 ^ d.exponent

/-- What the significand and the exponent of a finite double other than zero satisfy. -/
structure IsSignificand (m : Nat) (q : Int) : Prop where
  pos : 0 < m
  lt : m < 2 ^ 53
  least : -1074 ≤ q
  greatest : q ≤ 971
  full : 2 ^ 52 ≤ m ∨ q = -1074

/-- The distance to the next double below, in halves of a unit: a power of two is closer to it. -/
def gapBelow (m : Nat) (q : Int) : Nat := if m = 1 <<< 52 ∧ q > -1074 then 1 else 2

theorem gapBelow_le (m : Nat) (q : Int) : gapBelow m q ≤ 2 := by
  unfold gapBelow
  split <;> omega

/-- Whether a number, given in quarters of a unit, lies in the interval of a significand. The ends
of the interval go to the even significand. -/
def InInterval (m : Nat) (q : Int) (w : ℚ) : Prop :=
  if m % 2 = 0 then (4 * m - gapBelow m q : ℚ) ≤ w ∧ w ≤ 4 * m + 2
  else (4 * m - gapBelow m q : ℚ) < w ∧ w < 4 * m + 2

/-- Whether a number reads as `m * 2 ^ q`. -/
def ReadsAs (m : Nat) (q : Int) (v : ℚ) : Prop := InInterval m q (v / 2 ^ (q - 2))

/-! ## Powers of two -/

theorem two_zpow_pos (e : Int) : (0 : ℚ) < 2 ^ e := zpow_pos (by norm_num) e

theorem two_zpow_succ (e : Int) : (2 : ℚ) ^ (e + 1) = 2 * 2 ^ e := by
  rw [zpow_add_one₀ (by norm_num), mul_comm]

theorem two_zpow_sub_two (q : Int) : (2 : ℚ) ^ q = 4 * 2 ^ (q - 2) := by
  rw [show (4 : ℚ) = 2 ^ (2 : Int) by norm_num, ← zpow_add₀ (by norm_num)]
  congr 1
  omega

theorem two_zpow_le {e f : Int} (h : e ≤ f) : (2 : ℚ) ^ e ≤ 2 ^ f :=
  zpow_le_zpow_right₀ (by norm_num) h

theorem two_zpow_le_ten (n : Nat) : (2 : ℚ) ^ (3 * n : Int) ≤ 10 ^ (n : Int) := by
  rw [zpow_mul, zpow_natCast, zpow_natCast]
  exact pow_le_pow_left₀ (by norm_num) (by norm_num) n

/-- A power is the quotient of two with exponents at or above zero. -/
theorem zpow_eq_div {x : ℚ} (hx : x ≠ 0) (e : Int) : x ^ e = x ^ e.toNat / x ^ (-e).toNat := by
  rw [eq_div_iff (pow_ne_zero _ hx), ← zpow_natCast, ← zpow_natCast, ← zpow_add₀ hx]
  congr 1
  omega

/-! ## Intervals -/

theorem InInterval.bounds {w : ℚ} (h : InInterval m q w) :
    (4 * m - gapBelow m q : ℚ) ≤ w ∧ w ≤ 4 * m + 2 := by
  unfold InInterval at h
  split at h
  · exact h
  · exact ⟨h.1.le, h.2.le⟩

theorem InInterval.strict {w : ℚ} (h : InInterval m q w) (hm : m % 2 = 1) :
    (4 * m - gapBelow m q : ℚ) < w ∧ w < 4 * m + 2 := by
  rwa [InInterval, if_neg (by omega)] at h

/-- The bounds of what reads as `m * 2 ^ q`, in quarters of a unit. -/
theorem ReadsAs.bounds (h : ReadsAs m q v) :
    (4 * m - gapBelow m q : ℚ) * 2 ^ (q - 2) ≤ v ∧ v ≤ (4 * m + 2) * 2 ^ (q - 2) := by
  obtain ⟨hlow, hhigh⟩ := InInterval.bounds h
  exact ⟨(le_div_iff₀ (two_zpow_pos _)).mp hlow, (div_le_iff₀ (two_zpow_pos _)).mp hhigh⟩

theorem ReadsAs.pos (hs : IsSignificand m q) (h : ReadsAs m q v) : 0 < v := by
  have hm : (1 : ℚ) ≤ m := by exact_mod_cast hs.pos
  have hgap : (gapBelow m q : ℚ) ≤ 2 := by exact_mod_cast gapBelow_le m q
  have hpos : (0 : ℚ) < (4 * m - gapBelow m q) * 2 ^ (q - 2) :=
    mul_pos (by linarith) (two_zpow_pos _)
  exact lt_of_lt_of_le hpos h.bounds.1

/-- The double itself reads as itself. -/
theorem readsAs_self (m : Nat) (q : Int) : ReadsAs m q (m * 2 ^ q) := by
  have hquarters : (m * 2 ^ q : ℚ) / 2 ^ (q - 2) = 4 * m := by
    rw [two_zpow_sub_two, ← mul_assoc, mul_div_cancel_right₀ _ (two_zpow_pos _).ne', mul_comm]
  have hgap : (0 : ℚ) < gapBelow m q := by
    unfold gapBelow
    split <;> norm_num
  rw [ReadsAs, hquarters, InInterval]
  split <;> constructor <;> linarith

/-! ## Rounding a quotient -/

/-- The whole number that a quotient is closest to is what it is rounded to; from halfway between two
it goes to the even one. -/
theorem roundQuotient_eq (hb : 0 < b) (hlow : 2 * k * b ≤ 2 * a + b) (hhigh : 2 * a ≤ (2 * k + 1) * b)
    (hodd : k % 2 = 1 → 2 * k * b < 2 * a + b ∧ 2 * a < (2 * k + 1) * b) :
    roundQuotient a b = k := by
  have hdivide : b * (a / b) + a % b = a := Nat.div_add_mod a b
  have hmod : a % b < b := Nat.mod_lt a hb
  rw [roundQuotient]
  generalize a / b = c at *
  generalize a % b = r at *
  subst hdivide
  -- the whole number is the quotient or the next one
  have hk : k = c ∨ k = c + 1 := by
    have hle : k ≤ c + 1 := by
      by_contra hlt
      have : b * (c + 2) ≤ b * k := Nat.mul_le_mul_left b (by omega)
      nlinarith
    have hge : c ≤ k := by
      by_contra hlt
      have : b * (k + 1) ≤ b * c := Nat.mul_le_mul_left b (by omega)
      nlinarith
    omega
  rcases hk with rfl | rfl
  · have hremainder : 2 * r ≤ b := by nlinarith
    rcases hremainder.lt_or_eq with hlt | heq
    · rw [Nat.compare_eq_lt.mpr hlt]
    · rw [Nat.compare_eq_eq.mpr heq]
      have heven : k % 2 ≠ 1 := fun h => by
        have := (hodd h).2
        nlinarith
      simp only
      rw [if_pos (by omega)]
  · have hremainder : b ≤ 2 * r := by nlinarith
    rcases hremainder.lt_or_eq with hlt | heq
    · rw [Nat.compare_eq_gt.mpr hlt]
    · rw [Nat.compare_eq_eq.mpr heq.symm]
      have heven : (c + 1) % 2 ≠ 1 := fun h => by
        have := (hodd h).1
        nlinarith
      simp only
      rw [if_neg (by omega)]

/-- The same for a quotient of rationals. -/
theorem roundQuotient_of_ratio (hb : 0 < b) (hlow : (k : ℚ) - 1 / 2 ≤ a / b)
    (hhigh : (a / b : ℚ) ≤ k + 1 / 2)
    (hodd : k % 2 = 1 → (k : ℚ) - 1 / 2 < a / b ∧ (a / b : ℚ) < k + 1 / 2) :
    roundQuotient a b = k := by
  have hpos : (0 : ℚ) < b := by exact_mod_cast hb
  rw [le_div_iff₀ hpos] at hlow
  rw [div_le_iff₀ hpos] at hhigh
  rw [lt_div_iff₀ hpos, div_lt_iff₀ hpos] at hodd
  refine roundQuotient_eq hb ?_ ?_ fun h => ?_
  · have : (2 * k * b : ℚ) ≤ 2 * a + b := by linarith
    exact_mod_cast this
  · have : (2 * a : ℚ) ≤ (2 * k + 1) * b := by linarith
    exact_mod_cast this
  · obtain ⟨hl, hh⟩ := hodd h
    have h₁ : (2 * k * b : ℚ) < 2 * a + b := by linarith
    have h₂ : (2 * a : ℚ) < (2 * k + 1) * b := by linarith
    exact ⟨by exact_mod_cast h₁, by exact_mod_cast h₂⟩

/-! ## The exponent of the unit -/

theorem inUnits_snd_pos (num : Nat) (hden : 0 < den) (e : Int) : 0 < (inUnits num den e).2 := by
  show 0 < den <<< e.toNat
  rw [Nat.shiftLeft_eq]
  exact Nat.mul_pos hden (Nat.two_pow_pos _)

/-- A quotient in units is the quotient over the unit. -/
theorem inUnits_ratio (num : Nat) (hden : 0 < den) (e : Int) :
    ((inUnits num den e).1 / (inUnits num den e).2 : ℚ) = num / den / 2 ^ e := by
  have hpos : (den : ℚ) ≠ 0 := by exact_mod_cast hden.ne'
  have hlow : (2 : ℚ) ^ (-e).toNat ≠ 0 := pow_ne_zero _ two_ne_zero
  have hhigh : (2 : ℚ) ^ e.toNat ≠ 0 := pow_ne_zero _ two_ne_zero
  simp only [inUnits, Nat.shiftLeft_eq, Nat.cast_mul, Nat.cast_pow, Nat.cast_ofNat]
  rw [zpow_eq_div two_ne_zero e]
  field_simp

/-- The whole part of a quotient is below a number when the quotient is. -/
theorem div_lt_iff_ratio (hb : 0 < b) (n : Nat) : a / b < n ↔ (a / b : ℚ) < n := by
  have hpos : (0 : ℚ) < b := by exact_mod_cast hb
  rw [Nat.div_lt_iff_lt_mul hb, div_lt_iff₀ hpos]
  norm_cast

/-- A unit in which a number has 53 bits, or the smallest one. -/
structure IsUnit (u : ℚ) (e : Int) : Prop where
  least : -1074 ≤ e
  lt : u < 2 ^ 53 * 2 ^ e
  full : 2 ^ 52 * 2 ^ e ≤ u ∨ e = -1074

/-- A number has one unit. -/
theorem IsUnit.unique {e f : Int} (he : IsUnit u e) (hf : IsUnit u f) : e = f := by
  have hle : ∀ {e f : Int}, IsUnit u e → IsUnit u f → f ≤ e := by
    intro e f he hf
    by_contra hlt
    have hfull := hf.full.resolve_right (by have := he.least; omega)
    have hpow := two_zpow_le (show e + 1 ≤ f by omega)
    rw [two_zpow_succ] at hpow
    have hupper := he.lt
    linarith
  exact le_antisymm (hle hf he) (hle he hf)

/-- A quotient lies between two powers of two that the logarithms of its parts give. -/
theorem ratio_bounds (hnum : num ≠ 0) (hden : 0 < den) :
    (2 : ℚ) ^ ((num.log2 : Int) - den.log2 - 1) < num / den ∧
      (num / den : ℚ) < 2 ^ ((num.log2 : Int) - den.log2 + 1) := by
  have hpos : (0 : ℚ) < den := by exact_mod_cast hden
  have hnumLow : (2 : ℚ) ^ num.log2 ≤ num := by exact_mod_cast Nat.log2_self_le hnum
  have hnumHigh : (num : ℚ) < 2 ^ (num.log2 + 1) := by exact_mod_cast Nat.lt_log2_self
  have hdenLow : (2 : ℚ) ^ den.log2 ≤ den := by exact_mod_cast Nat.log2_self_le hden.ne'
  have hdenHigh : (den : ℚ) < 2 ^ (den.log2 + 1) := by exact_mod_cast Nat.lt_log2_self
  constructor
  · rw [lt_div_iff₀ hpos]
    calc (2 : ℚ) ^ ((num.log2 : Int) - den.log2 - 1) * den
        < 2 ^ ((num.log2 : Int) - den.log2 - 1) * 2 ^ (den.log2 + 1) :=
          mul_lt_mul_of_pos_left hdenHigh (two_zpow_pos _)
      _ = 2 ^ num.log2 := by
          rw [← zpow_natCast, ← zpow_natCast, ← zpow_add₀ two_ne_zero]
          congr 1
          omega
      _ ≤ num := hnumLow
  · rw [div_lt_iff₀ hpos]
    calc (num : ℚ) < 2 ^ (num.log2 + 1) := hnumHigh
      _ = 2 ^ ((num.log2 : Int) - den.log2 + 1) * 2 ^ den.log2 := by
          rw [← zpow_natCast, ← zpow_natCast, ← zpow_add₀ two_ne_zero]
          congr 1
          omega
      _ ≤ 2 ^ ((num.log2 : Int) - den.log2 + 1) * den :=
          mul_le_mul_of_nonneg_left hdenLow (two_zpow_pos _).le

/-- The exponent that is computed is that of the unit. -/
theorem isUnit_unitExponent (hnum : num ≠ 0) (hden : 0 < den) :
    IsUnit (num / den) (unitExponent num den) := by
  obtain ⟨hlow, hhigh⟩ := ratio_bounds hnum hden
  generalize hfirst : max ((num.log2 : Int) - den.log2 - 53) (-1074) = e
  have hquotient := div_lt_iff_ratio (a := (inUnits num den e).1)
    (inUnits_snd_pos num hden e) (2 ^ 53)
  rw [inUnits_ratio num hden, div_lt_iff₀ (two_zpow_pos e)] at hquotient
  push_cast at hquotient
  have hunit : unitExponent num den = if (num / den : ℚ) < 2 ^ 53 * 2 ^ e then e else e + 1 := by
    rw [unitExponent, hfirst]
    exact if_congr hquotient rfl rfl
  -- twice the bound is above the quotient, so that one step is enough
  have htwice : (num / den : ℚ) < 2 ^ 54 * 2 ^ e := by
    calc (num / den : ℚ) < 2 ^ ((num.log2 : Int) - den.log2 + 1) := hhigh
      _ ≤ 2 ^ (54 + e) := two_zpow_le (by omega)
      _ = 2 ^ 54 * 2 ^ e := zpow_add₀ two_ne_zero 54 e
  rw [hunit]
  split
  · refine ⟨by omega, ‹_›, ?_⟩
    by_cases hsmall : e = -1074
    · exact .inr hsmall
    · refine .inl ?_
      calc (2 : ℚ) ^ 52 * 2 ^ e = 2 ^ (52 + e) := (zpow_add₀ two_ne_zero 52 e).symm
        _ ≤ 2 ^ ((num.log2 : Int) - den.log2 - 1) := two_zpow_le (by omega)
        _ ≤ num / den := hlow.le
  · rename_i hge
    refine ⟨by omega, ?_, .inl ?_⟩ <;> rw [two_zpow_succ] <;> linarith

/-! ## The bits of a double -/

/-- The bits of the double `m * 2 ^ q` below the sign. -/
def bitsOf (m : Nat) (q : Int) : Nat := (q + 1074).toNat * 2 ^ 52 + m

theorem bitsOf_lt (hs : IsSignificand m q) : bitsOf m q < infiniteBits := by
  have hm := hs.lt
  have hq := hs.greatest
  rw [bitsOf, infiniteBits, Nat.shiftLeft_eq]
  omega

/-- What reads as a double has its unit, and is rounded to its significand, unless it lies below the
power of two that the double is. -/
theorem ReadsAs.rounded (hs : IsSignificand m q) (h : ReadsAs m q v)
    (hbinade : 2 ^ 52 * 2 ^ q ≤ v ∨ q = -1074) :
    IsUnit v q ∧ (m - 1 / 2 : ℚ) ≤ v / 2 ^ q ∧ v / 2 ^ q ≤ m + 1 / 2 ∧
      (m % 2 = 1 → (m - 1 / 2 : ℚ) < v / 2 ^ q ∧ v / 2 ^ q < m + 1 / 2) := by
  have hpow := two_zpow_sub_two q
  have hpos := two_zpow_pos (q - 2)
  have hgap : (gapBelow m q : ℚ) ≤ 2 := by exact_mod_cast gapBelow_le m q
  have hquarter : v / 2 ^ q = v / 2 ^ (q - 2) / 4 := by
    rw [hpow, div_div, mul_comm (4 : ℚ)]
  have hbounds := InInterval.bounds h
  refine ⟨⟨hs.least, ?_, hbinade⟩, ?_, ?_, fun hodd => ?_⟩
  · have hm : (m : ℚ) + 1 ≤ 2 ^ 53 := by exact_mod_cast hs.lt
    calc v ≤ (4 * m + 2) * 2 ^ (q - 2) := h.bounds.2
      _ < 4 * 2 ^ 53 * 2 ^ (q - 2) := mul_lt_mul_of_pos_right (by linarith) hpos
      _ = 2 ^ 53 * 2 ^ q := by rw [hpow]; ring
  · rw [hquarter]
    linarith
  · rw [hquarter]
    linarith
  · have hstrict := InInterval.strict h hodd
    rw [hquarter]
    constructor <;> linarith

/-- What reads as a power of two and lies below it has the next smaller unit, and is rounded up
there. -/
theorem ReadsAs.rounded_below (hs : IsSignificand m q) (h : ReadsAs m q v)
    (hbelow : v < 2 ^ 52 * 2 ^ q) (hq : q ≠ -1074) :
    m = 2 ^ 52 ∧ IsUnit v (q - 1) ∧ (2 ^ 53 - 1 / 2 : ℚ) ≤ v / 2 ^ (q - 1) ∧
      v / 2 ^ (q - 1) ≤ 2 ^ 53 + 1 / 2 := by
  have hfull : 2 ^ 52 ≤ m := hs.full.resolve_right hq
  have hleast := hs.least
  have hpow := two_zpow_sub_two q
  have hpos := two_zpow_pos (q - 2)
  have hunit : (2 : ℚ) ^ (q - 1) = 2 * 2 ^ (q - 2) := by
    rw [← two_zpow_succ]
    congr 1
    omega
  obtain ⟨hlow, -⟩ := h.bounds
  have hm : m = 2 ^ 52 := by
    by_contra hne
    have hlarge : (2 ^ 52 + 1 : ℚ) ≤ m := by
      have : 2 ^ 52 + 1 ≤ m := by omega
      exact_mod_cast this
    have hgap : (gapBelow m q : ℚ) ≤ 2 := by exact_mod_cast gapBelow_le m q
    have : (4 * 2 ^ 52 : ℚ) * 2 ^ (q - 2) ≤ (4 * m - gapBelow m q) * 2 ^ (q - 2) :=
      mul_le_mul_of_nonneg_right (by linarith) hpos.le
    rw [hpow] at hbelow
    linarith
  have hgap : gapBelow m q = 1 := if_pos ⟨hm, by omega⟩
  rw [hgap, hm] at hlow
  push_cast at hlow
  refine ⟨hm, ⟨by omega, ?_, .inl ?_⟩, ?_, ?_⟩
  · rw [hunit]
    linarith
  · rw [hunit]
    linarith
  · rw [le_div_iff₀ (two_zpow_pos _), hunit]
    linarith
  · rw [div_le_iff₀ (two_zpow_pos _), hunit]
    linarith

/-- **The nearest double to a number inside the interval of a double has its bits.** -/
theorem nearestBits_eq (hs : IsSignificand m q) (hden : 0 < den) (h : ReadsAs m q (num / den)) :
    nearestBits num den = bitsOf m q := by
  have hnum : num ≠ 0 := by
    rintro rfl
    have hpos := h.pos hs
    norm_num at hpos
  have hunit := isUnit_unitExponent hnum hden
  have hbits := (bitsOf_lt hs).le
  have hleast := hs.least
  rw [nearestBits, if_neg hnum]
  simp only [Nat.shiftLeft_eq]
  by_cases hbinade : 2 ^ 52 * 2 ^ q ≤ (num / den : ℚ) ∨ q = -1074
  · obtain ⟨hq, hlow, hhigh, hodd⟩ := h.rounded hs hbinade
    rw [hunit.unique hq, roundQuotient_of_ratio (k := m) (inUnits_snd_pos num hden q) ?_ ?_ ?_]
    · exact min_eq_left hbits
    · rwa [inUnits_ratio num hden]
    · rwa [inUnits_ratio num hden]
    · rwa [inUnits_ratio num hden]
  · rw [not_or, not_le] at hbinade
    obtain ⟨hm, hq, hlow, hhigh⟩ := h.rounded_below hs hbinade.1 hbinade.2
    rw [hunit.unique hq,
      roundQuotient_of_ratio (k := 2 ^ 53) (inUnits_snd_pos num hden (q - 1)) ?_ ?_ (by omega)]
    · have hcarry : (q - 1 + 1074).toNat * 2 ^ 52 + 2 ^ 53 = bitsOf m q := by
        rw [bitsOf, hm]
        have := hbinade.2
        omega
      rw [hcarry]
      exact min_eq_left hbits
    · rw [inUnits_ratio num hden]
      exact_mod_cast hlow
    · rw [inUnits_ratio num hden]
      exact_mod_cast hhigh

/-! ## Decimals -/

theorem Digits.value_eq_zero_iff {d : Digits} : d.value = 0 ↔ d.digits = 0 := by
  have hpow : (10 : ℚ) ^ d.exponent ≠ 0 := zpow_ne_zero _ (by norm_num)
  rw [value, mul_eq_zero_iff_right hpow, Nat.cast_eq_zero]

/-- A decimal as a fraction. -/
theorem Digits.value_eq_div (d : Digits) : d.value =
    (d.digits * Nat.pow 10 d.exponent.toNat : Nat) / (Nat.pow 10 (-d.exponent).toNat : Nat) := by
  rw [value, zpow_eq_div (by norm_num) d.exponent, mul_div_assoc']
  norm_cast

/-- A decimal with so many digits lies below the power of ten that their binary logarithm gives. -/
theorem Digits.value_lt (d : Digits) :
    d.value < 10 ^ (d.exponent + d.digits.log2 / 3 + 1) := by
  have hten : (0 : ℚ) < 10 ^ d.exponent := zpow_pos (by norm_num) _
  have hdigits : d.digits < 10 ^ (d.digits.log2 / 3 + 1) := by
    calc d.digits < 2 ^ (d.digits.log2 + 1) := Nat.lt_log2_self
      _ ≤ 2 ^ (3 * (d.digits.log2 / 3 + 1)) := Nat.pow_le_pow_right (by omega) (by omega)
      _ = 8 ^ (d.digits.log2 / 3 + 1) := Nat.pow_mul 2 3 _
      _ ≤ 10 ^ (d.digits.log2 / 3 + 1) := Nat.pow_le_pow_left (by omega) _
  calc d.value < 10 ^ (d.digits.log2 / 3 + 1) * 10 ^ d.exponent :=
        mul_lt_mul_of_pos_right (by exact_mod_cast hdigits) hten
    _ = 10 ^ (d.exponent + d.digits.log2 / 3 + 1) := by
        rw [← zpow_natCast, ← zpow_add₀ (by norm_num)]
        congr 1
        push_cast
        ring

/-- What reads as a double is neither so large nor so small that its exponent alone decides. -/
theorem ReadsAs.exponent_bounds {d : Digits} (hs : IsSignificand m q) (h : ReadsAs m q d.value) :
    ¬400 < d.exponent ∧ ¬d.exponent + d.digits.log2 / 3 < -400 := by
  have hpos := h.pos hs
  obtain ⟨hlow, hhigh⟩ := h.bounds
  have hgreatest := hs.greatest
  have hleast := hs.least
  constructor
  · intro hlarge
    have hdigits : (1 : ℚ) ≤ d.digits := by
      have hne : d.digits ≠ 0 := fun hzero => hpos.ne' (Digits.value_eq_zero_iff.mpr hzero)
      exact_mod_cast Nat.one_le_iff_ne_zero.mpr hne
    have hm : (4 * m + 2 : ℚ) ≤ 2 ^ 55 := by
      have := hs.lt
      have hle : 4 * m + 2 ≤ 2 ^ 55 := by omega
      exact_mod_cast hle
    have habove : (10 : ℚ) ^ (401 : Int) ≤ d.value := by
      calc (10 : ℚ) ^ (401 : Int) ≤ 10 ^ d.exponent :=
            zpow_le_zpow_right₀ (by norm_num) (by omega)
        _ ≤ d.value := le_mul_of_one_le_left (zpow_nonneg (by norm_num) _) hdigits
    have hbelow : d.value ≤ 2 ^ (1024 : Int) := by
      calc d.value ≤ (4 * m + 2) * 2 ^ (q - 2) := hhigh
        _ ≤ 2 ^ 55 * 2 ^ (969 : Int) :=
            mul_le_mul hm (two_zpow_le (by omega)) (two_zpow_pos _).le (by norm_num)
        _ = 2 ^ (1024 : Int) := (zpow_add₀ two_ne_zero 55 969).symm
    have hgap : (2 : ℚ) ^ (1024 : Int) < 10 ^ (401 : Int) := by
      calc (2 : ℚ) ^ (1024 : Int) < 2 ^ (3 * (401 : Nat) : Int) :=
            zpow_lt_zpow_right₀ (by norm_num) (by omega)
        _ ≤ 10 ^ ((401 : Nat) : Int) := two_zpow_le_ten 401
    exact absurd (habove.trans hbelow) (not_le.mpr hgap)
  · intro hsmall
    have hm : (1 : ℚ) ≤ m := by exact_mod_cast hs.pos
    have hgap : (gapBelow m q : ℚ) ≤ 2 := by exact_mod_cast gapBelow_le m q
    have habove : (2 : ℚ) ^ (-1076 : Int) ≤ d.value := by
      calc (2 : ℚ) ^ (-1076 : Int) ≤ 2 ^ (q - 2) := two_zpow_le (by omega)
        _ ≤ (4 * m - gapBelow m q) * 2 ^ (q - 2) :=
            le_mul_of_one_le_left (two_zpow_pos _).le (by linarith)
        _ ≤ d.value := hlow
    have hbelow : d.value < 10 ^ (-400 : Int) := by
      calc d.value < 10 ^ (d.exponent + d.digits.log2 / 3 + 1) := d.value_lt
        _ ≤ 10 ^ (-400 : Int) := zpow_le_zpow_right₀ (by norm_num) (by omega)
    have hgap : (10 : ℚ) ^ (-400 : Int) ≤ 2 ^ (-1076 : Int) := by
      calc (10 : ℚ) ^ (-400 : Int) = (10 ^ ((400 : Nat) : Int))⁻¹ := zpow_neg 10 400
        _ ≤ (2 ^ (3 * (400 : Nat) : Int))⁻¹ :=
            inv_anti₀ (two_zpow_pos _) (two_zpow_le_ten 400)
        _ = 2 ^ (-(3 * (400 : Nat) : Int)) := (zpow_neg 2 _).symm
        _ ≤ 2 ^ (-1076 : Int) := two_zpow_le (by omega)
    exact absurd (hbelow.trans_le (hgap.trans habove)) (lt_irrefl _)

theorem nearest_of_readsAs {d : Digits} (hs : IsSignificand m q) (h : ReadsAs m q d.value)
    (negative : Bool) : nearest negative d =
      Float.ofBits (bitsOf m q + if negative then 1 <<< 63 else 0).toUInt64 := by
  obtain ⟨hlarge, hsmall⟩ := h.exponent_bounds hs
  have hdigits : d.digits ≠ 0 := fun hzero =>
    (h.pos hs).ne' (Digits.value_eq_zero_iff.mpr hzero)
  rw [Digits.value_eq_div] at h
  have hden : 0 < Nat.pow 10 (-d.exponent).toNat := Nat.pow_pos (by decide)
  simp only [nearest, if_neg hdigits, if_neg hlarge, if_neg hsmall, nearestBits_eq hs hden h]

/-! ## Doubles -/

open Binary64 in
/-- The significand of a finite double and its exponent give its bits below the sign. -/
theorem significand_cases {x : Float} (hx : x.isFinite = true) :
    ((significand x).1 = 0 ∧ Binary64.magnitude x = 0) ∨
      (IsSignificand (significand x).1 (significand x).2 ∧
        bitsOf (significand x).1 (significand x).2 = Binary64.magnitude x) := by
  have hmagnitude : Binary64.magnitude x < 2047 * 2 ^ 52 := by
    have hrank := isFinite_iff_rank.mp hx
    rwa [rank, natAbs_rankOfBits] at hrank
  unfold significand
  simp only [Nat.one_shiftLeft]
  generalize Binary64.magnitude x = n at *
  split
  · -- the smallest exponent, without a hidden bit
    by_cases hzero : n % 2 ^ 52 = 0
    · exact .inl ⟨hzero, by omega⟩
    · refine .inr ⟨⟨Nat.pos_of_ne_zero hzero, by omega, by omega, by omega, .inr rfl⟩, ?_⟩
      rw [bitsOf]
      omega
  · refine .inr ⟨⟨by omega, by omega, by omega, by omega, .inl (by omega)⟩, ?_⟩
    rw [bitsOf]
    omega

/-- Whether a number at or above zero reads as the size of a finite double. -/
def ReadsBack (x : Float) (v : ℚ) : Prop :=
  if (Binary64.significand x).1 = 0 then v = 0
  else ReadsAs (Binary64.significand x).1 (Binary64.significand x).2 v

open Binary64 in
/-- **A decimal that reads back is read as the double**, with its sign. -/
theorem nearest_of_readsBack {x : Float} {d : Digits} (hx : x.isFinite = true)
    (h : ReadsBack x d.value) : nearest (isNegative x) d = x := by
  have hbits : Binary64.magnitude x + (if isNegative x then 1 <<< 63 else 0) = x.toBits.toNat := by
    have hlt := x.toBits.toNat_lt
    simp only [Binary64.magnitude, isNegative, decide_eq_true_eq, Nat.one_shiftLeft]
    split <;> omega
  have hx' : Float.ofBits (Binary64.magnitude x + if isNegative x then 1 <<< 63 else 0).toUInt64 = x := by
    rw [hbits]
    show Float.ofBits (UInt64.ofNat x.toBits.toNat) = x
    rw [UInt64.ofNat_toNat, Float.ofBits_toBits]
  rcases significand_cases hx with ⟨hzero, hmagnitude⟩ | ⟨hs, hmagnitude⟩
  · rw [ReadsBack, if_pos hzero, Digits.value_eq_zero_iff] at h
    rw [hmagnitude] at hx'
    simpa only [nearest, if_pos h] using hx'
  · rw [ReadsBack, if_neg hs.pos.ne'] at h
    rw [nearest_of_readsAs hs h, hmagnitude, hx']

end StepSignal.Decimal
