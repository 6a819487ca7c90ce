import StepSignal.Proofs.Binary64.Quotient

/-!
# The accuracy of double arithmetic

Sums and differences of doubles, and products and quotients that are not too small, are off by at
most the fraction `epsilon` of the exact value, as long as they do not overflow. A mantissa is
rounded to one of the two whole numbers around it, and has at least 53 bits before.
-/

namespace StepSignal
namespace Binary64

open Float.Model (UnpackedFloat Format totalExponent)
open Float.Model.UnpackedFloat
open Scalar (toRat)

/-- The distance from one to the next double. -/
def epsilon : Rat := 1 / 2 ^ 52

theorem epsilon_pos : 0 < epsilon := by
  unfold epsilon
  positivity

theorem toRat_zero : toRat (0 : Float) = 0 := by
  show ((0 : Int) : Rat) / 2 ^ 1074 = 0
  norm_num

theorem toRat_pos {x : Float} (h : 0 < x) : 0 < toRat x := by
  have hlt : Scalar.lt 0 x = true := decide_eq_true h
  exact toRat_zero.symm.trans_lt ((LawfulScalar.lt_iff 0 x).mp hlt).2.2

/-! ## Rounding mantissas -/

theorem mantissa_shiftRight (em : ExtendedMantissa) (k : Nat) :
    (em >>> k).mantissa = em.mantissa / 2 ^ k := by
  induction k with
  | zero => exact (Nat.div_one _).symm
  | succ k ih =>
    have hstep : (em >>> (k + 1)).mantissa = (em >>> k).mantissa / 2 := rfl
    rw [hstep, ih, Nat.div_div_eq_div_mul, pow_succ]

theorem mantissa_ofMantissaAndAccuracy (n : Nat) (accuracy : Accuracy) :
    (ExtendedMantissa.ofMantissaAndAccuracy n accuracy).mantissa = n := by
  rcases accuracy with - | (_ | _ | _) <;> rfl

/-- A mantissa is rounded down or up to a whole number. -/
theorem roundedMantissa_bounds (em : ExtendedMantissa) :
    em.mantissa ≤ em.roundedMantissa ∧ em.roundedMantissa ≤ em.mantissa + 1 := by
  obtain ⟨mantissa, roundBit, stickyBit⟩ := em
  cases roundBit <;> cases stickyBit <;>
    simp only [ExtendedMantissa.roundedMantissa, ExtendedMantissa.accuracy,
      Accuracy.roundToNearestEven] <;> omega

/-- The leading 53 bits of a mantissa. -/
theorem leading_bounds {n k : Nat} (hn : 2 ^ 52 ≤ n) (hk : k + 52 = n.log2) :
    2 ^ 52 ≤ n / 2 ^ k ∧ n / 2 ^ k < 2 ^ 53 := by
  have hne : n ≠ 0 := by
    rintro rfl
    exact absurd hn (by decide)
  constructor
  · rw [Nat.le_div_iff_mul_le (Nat.two_pow_pos k), ← pow_add, add_comm, hk]
    exact Nat.log2_self_le hne
  · rw [Nat.div_lt_iff_lt_mul (Nat.two_pow_pos k), ← pow_add, show 53 + k = n.log2 + 1 by omega]
    exact Nat.lt_log2_self

/-- Rounding a mantissa of at least 53 bits gives one of the two whole numbers around its leading
bits, unless the exponent is too small. -/
theorem roundWithAccuracy_bounds (s : Sign) {n k : Nat} {t : Int} (accuracy : Accuracy)
    (hn : 2 ^ 52 ≤ n) (hk : k + 52 = n.log2) (ht : -1074 ≤ t + k) :
    ∃ M E, ∃ hM : 0 < M, roundWithAccuracy Format.binary64 s n t accuracy = .finite s M E hM ∧
      M < 2 ^ 53 ∧ -1074 ≤ E ∧ (2 ^ 52 ≤ M ∨ E = -1074) ∧
      ∃ r, n / 2 ^ k ≤ r ∧ r ≤ n / 2 ^ k + 1 ∧ (M : Rat) * 2 ^ E = r * 2 ^ (t + k) := by
  obtain ⟨hlo, hhi⟩ := leading_bounds hn hk
  have hshift : shiftToTargetExponent Format.binary64 n t accuracy
      = (ExtendedMantissa.ofMantissaAndAccuracy n accuracy >>> k, t + k) := by
    have htarget : (Format.binary64.targetExponent (totalExponent n t) - t).toNat = k := by
      rw [targetExponent_eq]
      omega
    rw [shiftToTargetExponent, shiftToExponent, htarget]
  obtain ⟨hle, hle'⟩ := roundedMantissa_bounds
    (ExtendedMantissa.ofMantissaAndAccuracy n accuracy >>> k)
  rw [mantissa_shiftRight, mantissa_ofMantissaAndAccuracy] at hle hle'
  unfold roundWithAccuracy
  rw [hshift]
  dsimp only
  generalize ExtendedMantissa.roundedMantissa _ = r at hle hle' ⊢
  -- rounding may carry into a 54th bit, and then a second shift gives it back
  rcases (show r ≤ 2 ^ 53 by omega).lt_or_eq with hlt | rfl
  · have hpos : 0 < r := by omega
    refine ⟨r, t + k, hpos, ?_, hlt, ht, .inl (hlo.trans hle), r, hle, hle', rfl⟩
    rw [shiftToTarget_self hlt ht]
    exact dif_neg hpos.ne'
  · refine ⟨2 ^ 52, t + k + 1, by decide, ?_, by decide, by omega, .inl le_rfl, _, hle, hle', ?_⟩
    · rw [shiftToTarget_carry ht]
      rfl
    · rw [zpow_add_one₀ two_ne_zero]
      push_cast
      ring

/-- Rounding from a mantissa of at least 53 bits is off by at most the fraction `epsilon`, unless the
value is too small. -/
theorem roundWithAccuracy_near (s : Sign) {n : Nat} {t : Int} (accuracy : Accuracy)
    (hn : 2 ^ 52 ≤ n) {v : Rat} (hlo : n * 2 ^ t ≤ v) (hhi : v < (n + 1) * 2 ^ t)
    (hv : 2 ^ (-1022 : Int) ≤ v) :
    ∃ M E, ∃ hM : 0 < M, roundWithAccuracy Format.binary64 s n t accuracy = .finite s M E hM ∧
      M < 2 ^ 53 ∧ -1074 ≤ E ∧ (2 ^ 52 ≤ M ∨ E = -1074) ∧ |M * 2 ^ E - v| ≤ epsilon * v := by
  obtain ⟨k, hk⟩ := Nat.exists_eq_add_of_le' ((Nat.le_log2 (by omega)).mpr hn)
  have htwo : (0 : Rat) < 2 ^ t := by positivity
  have hstep : (2 : Rat) ^ (t + k) = 2 ^ k * 2 ^ t := by
    rw [zpow_add₀ two_ne_zero, zpow_natCast, mul_comm]
  have ht : -1074 ≤ t + k := by
    have hn' : ((n + 1 : Nat) : Rat) ≤ ((2 ^ (k + 53) : Nat) : Rat) := by
      rw [Nat.cast_le, show k + 53 = n.log2 + 1 by omega]
      exact Nat.lt_log2_self
    have hlt : (2 : Rat) ^ (-1022 : Int) < 2 ^ (t + k + 53) :=
      calc (2 : Rat) ^ (-1022 : Int) < (n + 1) * 2 ^ t := hv.trans_lt hhi
        _ ≤ 2 ^ (k + 53) * 2 ^ t := by
          refine mul_le_mul_of_nonneg_right ?_ htwo.le
          exact_mod_cast hn'
        _ = 2 ^ (t + k + 53) := by
          rw [zpow_add₀ two_ne_zero, hstep, pow_add, zpow_ofNat]
          ring
    have := (zpow_lt_zpow_iff_right₀ one_lt_two).mp hlt
    omega
  obtain ⟨M, E, hM, heq, hlt, hE, hfull, r, hr, hr', hvalue⟩ :=
    roundWithAccuracy_bounds s accuracy hn hk.symm ht
  refine ⟨M, E, hM, heq, hlt, hE, hfull, ?_⟩
  -- the leading bits are below the value, by less than their last place
  generalize hF : n / 2 ^ k = F at hr hr'
  have hfloor : F * 2 ^ k ≤ n ∧ n + 1 ≤ (F + 1) * 2 ^ k := by
    have hdiv := Nat.div_add_mod' n (2 ^ k)
    have hmod := Nat.mod_lt n (Nat.two_pow_pos k)
    rw [hF] at hdiv
    rw [Nat.add_mul]
    omega
  have hbelow : F * (2 : Rat) ^ (t + k) ≤ v :=
    calc F * (2 : Rat) ^ (t + k) = ((F * 2 ^ k : Nat) : Rat) * 2 ^ t := by
          rw [hstep]
          push_cast
          ring
      _ ≤ n * 2 ^ t := mul_le_mul_of_nonneg_right (Nat.cast_le.mpr hfloor.1) htwo.le
      _ ≤ v := hlo
  have habove : v ≤ (F + 1) * (2 : Rat) ^ (t + k) :=
    calc v ≤ ((n + 1 : Nat) : Rat) * 2 ^ t := by exact_mod_cast hhi.le
      _ ≤ (((F + 1) * 2 ^ k : Nat) : Rat) * 2 ^ t :=
          mul_le_mul_of_nonneg_right (Nat.cast_le.mpr hfloor.2) htwo.le
      _ = (F + 1) * (2 : Rat) ^ (t + k) := by
          rw [hstep]
          push_cast
          ring
  have hplace : (2 : Rat) ^ (t + k) ≤ epsilon * v := by
    have hF : (2 ^ 52 : Rat) ≤ F := by exact_mod_cast hF ▸ (leading_bounds hn hk.symm).1
    unfold epsilon
    rw [one_div, inv_mul_eq_div, le_div_iff₀ (by positivity), mul_comm]
    exact (mul_le_mul_of_nonneg_right hF (by positivity)).trans hbelow
  have hr : (F : Rat) ≤ r := Nat.cast_le.mpr hr
  have hr' : (r : Rat) ≤ F + 1 := by exact_mod_cast hr'
  have hg : (0 : Rat) < 2 ^ (t + k) := by positivity
  rw [hvalue, abs_le]
  constructor <;> nlinarith

/-! ## Products and quotients -/

section Near

variable {x y z : Float} {v : Rat}

theorem units_mul_two_zpow (m : Nat) {e : Int} (he : -1074 ≤ e) :
    ((m * 2 ^ (e + 1074).toNat : Nat) : Rat) / 2 ^ 1074 = m * 2 ^ e := by
  have hexp : (2 : Rat) ^ (e + 1074).toNat = 2 ^ e * 2 ^ 1074 := by
    rw [← zpow_natCast, Int.toNat_of_nonneg (by omega), zpow_add₀ two_ne_zero]
    rfl
  rw [Nat.cast_mul, Nat.cast_pow, Nat.cast_ofNat, hexp, ← mul_assoc,
    mul_div_cancel_right₀ _ (by positivity)]

/-- A finite double above zero is a canonical mantissa times a power of two. -/
theorem exists_mantissa (hx : x.isFinite = true) (hpos : 0 < toRat x) :
    ∃ m e, ∃ hm : 0 < m, x.toModel.unpack = .finite .positive m e hm ∧
      Canonical (.finite .positive m e hm) ∧ toRat x = m * 2 ^ e := by
  have hc : Canonical x.toModel.unpack := canonical_unpack _
  have hx : x.toModel.unpack.isFinite = true := hx
  have hvalue : toRat x = unpackedUnits x.toModel.unpack / 2 ^ 1074 := rfl
  rw [hvalue] at hpos ⊢
  rw [lt_div_iff₀ (by positivity), zero_mul, Int.cast_pos] at hpos
  generalize x.toModel.unpack = u at *
  cases u with
  | notANumber | infinity s => cases hx
  | zero s => exact absurd hpos (lt_irrefl 0)
  | finite s m e hm =>
    cases s with
    | negative =>
      have hneg : 0 < -((m * 2 ^ (e + 1074).toNat : Nat) : Int) := hpos
      omega
    | positive => exact ⟨m, e, hm, rfl, hc, units_mul_two_zpow m hc.2.1⟩

/-- A double is a value above zero, up to the fraction `epsilon` of it, or infinity if the value is
too large. -/
structure Near (z : Float) (v : Rat) : Prop where
  isNaN : z.isNaN = false
  pos : 0 < toRat z
  le : toRat z ≤ (1 + epsilon) * v
  ge : z.isFinite = true → (1 - epsilon) * v ≤ toRat z

/-- What is rounded from a mantissa of at least 53 bits is near the value, unless that is too small.
-/
theorem near_of_unpack {n : Nat} {t : Int} {accuracy : Accuracy}
    (hz : z.toModel.unpack = (Float.Model.pack
      (roundWithAccuracy Format.binary64 .positive n t accuracy)).unpack)
    (hn : 2 ^ 52 ≤ n) (hlo : n * 2 ^ t ≤ v) (hhi : v < (n + 1) * 2 ^ t)
    (hv : 2 ^ (-1022 : Int) ≤ v) : Near z v := by
  obtain ⟨M, E, hM, heq, hlt, hE, hfull, hnear⟩ :=
    roundWithAccuracy_near .positive accuracy hn hlo hhi hv
  obtain ⟨hnumber, hunits⟩ := pack_finite_denotes (s := .positive) hM hlt hE hfull
  rw [← heq, ← hz] at hnumber hunits
  have hunits : units z = (min (M * 2 ^ (E + 1074).toNat) infinityUnits : Nat) := hunits
  have hvalue := units_mul_two_zpow M hE
  rw [abs_le] at hnear
  refine ⟨isNaN_eq_false_iff.mpr hnumber, ?_, ?_, fun hfinite => ?_⟩
  · have hpos : 0 < min (M * 2 ^ (E + 1074).toNat) infinityUnits :=
      lt_min (Nat.mul_pos hM (Nat.two_pow_pos _)) infinityUnits_pos
    have hpos : (0 : Rat) < units z := by
      rw [hunits]
      exact_mod_cast hpos
    exact div_pos hpos (by positivity)
  · have hle : (units z : Rat) / 2 ^ 1074 ≤ M * 2 ^ E := by
      rw [← hvalue, hunits]
      refine div_le_div_of_nonneg_right ?_ (by positivity)
      exact_mod_cast Nat.min_le_left _ _
    have hle : toRat z ≤ M * 2 ^ E := hle
    linarith
  · have hin : M * 2 ^ (E + 1074).toNat ≤ infinityUnits := by
      have := (isFinite_iff_units.mp hfinite).2
      omega
    have heq : toRat z = M * 2 ^ E := by
      rw [← hvalue, ← min_eq_left hin]
      exact congrArg (fun n : Int => (n : Rat) / 2 ^ 1074) hunits
    linarith

theorem Near.zero_lt (h : Near z v) : 0 < z := by
  have hpos : 0 < (units z : Rat) / 2 ^ 1074 := h.pos
  rw [lt_div_iff₀ (by positivity), zero_mul, Int.cast_pos] at hpos
  exact lt_iff_units.mpr ⟨rfl, h.isNaN, hpos⟩

/-- What is near a value is finite, unless it is above all finite doubles. -/
theorem Near.isFinite (h : Near z v) (hy : y.isFinite = true) (hle : toRat z ≤ toRat y) :
    z.isFinite = true := by
  have hzero : (0 : Float).isFinite = true := rfl
  have hpos : toRat (0 : Float) ≤ toRat z := toRat_zero.trans_le h.pos.le
  exact LawfulScalar.isFinite_of_le_of_le 0 z y hzero hy h.isNaN hpos hle

/-- A canonical value of one or more has a mantissa of 53 bits. -/
theorem two_pow_le_mantissa {m : Nat} {e : Int} {hm : 0 < m}
    (hc : Canonical (.finite .positive m e hm)) (hone : 1 ≤ (m : Rat) * 2 ^ e) : 2 ^ 52 ≤ m := by
  obtain ⟨hlt, he, -, hfull⟩ := hc
  refine hfull.resolve_right fun hsmall => ?_
  rw [← units_mul_two_zpow m he, le_div_iff₀ (by positivity), one_mul] at hone
  have := exponent_of_oneUnits_le hlt (by exact_mod_cast hone)
  omega

/-- A product of finite doubles above zero, the first of which is one or more, is near the exact
product, unless that is too small. -/
theorem near_mul (hx : x.isFinite = true) (hone : 1 ≤ toRat x) (hy : y.isFinite = true)
    (hpos : 0 < toRat y) (hv : 2 ^ (-1022 : Int) ≤ toRat x * toRat y) :
    Near (x * y) (toRat x * toRat y) := by
  obtain ⟨m₁, e₁, hm₁, hux, hc₁, hx⟩ := exists_mantissa hx (one_pos.trans_le hone)
  obtain ⟨m₂, e₂, hm₂, huy, -, hy⟩ := exists_mantissa hy hpos
  have hvalue : toRat x * toRat y = ((m₁ * m₂ : Nat) : Rat) * 2 ^ (e₁ + e₂) := by
    rw [hx, hy, zpow_add₀ two_ne_zero]
    push_cast
    ring
  have hproduct : (x * y).toModel.unpack = (Float.Model.pack
      (roundWithAccuracy Format.binary64 .positive (m₁ * m₂) (e₁ + e₂) .exact)).unpack := by
    show (Float.Model.pack (UnpackedFloat.mul Format.binary64 x.toModel.unpack
      y.toModel.unpack)).unpack = _
    rw [hux, huy]
    rfl
  refine near_of_unpack hproduct ?_ hvalue.ge ?_ hv
  · exact (two_pow_le_mantissa hc₁ (hx ▸ hone)).trans (Nat.le_mul_of_pos_right m₁ hm₂)
  · rw [hvalue]
    exact mul_lt_mul_of_pos_right (lt_add_one _) (by positivity)

/-- The exponent of a quotient leaves it at least 53 bits, unless it is too small. -/
theorem two_pow_mul_le_div {m₁ m₂ : Nat} {e₁ e₂ t : Int} (hm₁ : 0 < m₁) (hm₂ : 0 < m₂)
    (ht : t ≤ max (m₁.log2 + e₁ - (m₂.log2 + e₂) - 53) (-1074))
    (hv : 2 ^ (-1022 : Int) ≤ (m₁ * 2 ^ e₁ : Rat) / (m₂ * 2 ^ e₂)) :
    (2 : Rat) ^ 52 * 2 ^ t ≤ m₁ * 2 ^ e₁ / (m₂ * 2 ^ e₂) := by
  have hsum : (2 : Rat) ^ 52 * 2 ^ t = 2 ^ (52 + t) := by
    rw [zpow_add₀ two_ne_zero]
    rfl
  rw [hsum]
  rcases le_max_iff.mp ht with ht | ht
  · have hlo : (2 : Rat) ^ m₁.log2 ≤ m₁ := by exact_mod_cast Nat.log2_self_le hm₁.ne'
    have hhi : (m₂ : Rat) ≤ 2 ^ (m₂.log2 + 1) := by exact_mod_cast Nat.lt_log2_self.le
    calc (2 : Rat) ^ (52 + t)
        ≤ 2 ^ ((m₁.log2 : Int) + e₁ - ((m₂.log2 + 1 : Nat) + e₂)) :=
          zpow_le_zpow_right₀ one_le_two (by omega)
      _ = 2 ^ m₁.log2 * 2 ^ e₁ / (2 ^ (m₂.log2 + 1) * 2 ^ e₂) := by
          rw [zpow_sub₀ two_ne_zero, zpow_add₀ two_ne_zero, zpow_add₀ two_ne_zero, zpow_natCast,
            zpow_natCast]
      _ ≤ m₁ * 2 ^ e₁ / (m₂ * 2 ^ e₂) := by gcongr
  · exact (zpow_le_zpow_right₀ one_le_two (by omega)).trans hv

/-- A quotient of finite doubles above zero is near the exact quotient, unless that is too small. -/
theorem near_div (hx : x.isFinite = true) (hxpos : 0 < toRat x) (hy : y.isFinite = true)
    (hypos : 0 < toRat y) (hv : 2 ^ (-1022 : Int) ≤ toRat x / toRat y) :
    Near (x / y) (toRat x / toRat y) := by
  obtain ⟨m₁, e₁, hm₁, hux, -, hx⟩ := exists_mantissa hx hxpos
  obtain ⟨m₂, e₂, hm₂, huy, -, hy⟩ := exists_mantissa hy hypos
  have hquotient : (x / y).toModel.unpack = (Float.Model.pack (UnpackedFloat.div Format.binary64
      (.finite .positive m₁ e₁ hm₁) (.finite .positive m₂ e₂ hm₂))).unpack := by
    show (Float.Model.pack (UnpackedFloat.div Format.binary64 x.toModel.unpack
      y.toModel.unpack)).unpack = _
    rw [hux, huy]
  simp only [UnpackedFloat.div, divCore, Nat.shiftLeft_eq] at hquotient
  generalize ht : min (e₁ - e₂) (Format.binary64.targetExponent
    (totalExponent m₁ e₁ - totalExponent m₂ e₂)) = t at hquotient
  have hte : t ≤ e₁ - e₂ := ht ▸ min_le_left _ _
  have htarget : t ≤ max (m₁.log2 + e₁ - (m₂.log2 + e₂) - 53) (-1074) := by
    have hexp : Format.binary64.targetExponent (totalExponent m₁ e₁ - totalExponent m₂ e₂)
        = max (m₁.log2 + e₁ - (m₂.log2 + e₂) - 53) (-1074) := by
      simp only [Format.targetExponent, totalExponent, Format.mantissaBits, Format.minExponent]
      norm_num
      omega
    exact hexp ▸ ht ▸ min_le_right _ _
  generalize ha : (e₁ - e₂ - t).toNat = a at hquotient
  have hm₂' : (0 : Rat) < m₂ := Nat.cast_pos.mpr hm₂
  have htwo : (0 : Rat) < 2 ^ t := by positivity
  have hvalue : toRat x / toRat y = (m₁ * 2 ^ a : Nat) / m₂ * 2 ^ t := by
    have hexp : (2 : Rat) ^ e₁ = 2 ^ a * 2 ^ t * 2 ^ e₂ := by
      rw [← zpow_natCast, ← zpow_add₀ two_ne_zero, ← zpow_add₀ two_ne_zero]
      congr 1
      omega
    rw [hx, hy, hexp]
    push_cast
    field_simp
  refine near_of_unpack hquotient ?_ ?_ ?_ hv
  · have hlarge := two_pow_mul_le_div hm₁ hm₂ htarget (hx ▸ hy ▸ hv)
    rw [← hx, ← hy, hvalue] at hlarge
    have hlarge := le_of_mul_le_mul_right hlarge htwo
    rw [le_div_iff₀ hm₂'] at hlarge
    exact (Nat.le_div_iff_mul_le hm₂).mpr (by exact_mod_cast hlarge)
  · rw [hvalue]
    exact mul_le_mul_of_nonneg_right Nat.cast_div_le htwo.le
  · rw [hvalue]
    refine mul_lt_mul_of_pos_right ((div_lt_iff₀ hm₂').mpr ?_) htwo
    exact_mod_cast Nat.lt_mul_of_div_lt (Nat.lt_succ_self _) hm₂

end Near

/-! ## Sums and differences -/

section Sums

variable {x y z : Float}

theorem nearestDiv_between (n k : Nat) :
    n / 2 ^ k ≤ nearestDiv n k ∧ nearestDiv n k ≤ n / 2 ^ k + 1 := by
  unfold nearestDiv
  split_ifs <;> omega

/-- Rounding a number of units is off by at most the fraction `epsilon`. -/
theorem abs_roundNat_sub_le (n : Nat) : |(roundNat n : Rat) - n| ≤ epsilon * n := by
  rcases Nat.eq_zero_or_pos (excess n) with hzero | hpos
  · rw [roundNat, hzero, nearestDiv_zero, pow_zero, mul_one, sub_self, abs_zero]
    exact mul_nonneg epsilon_pos.le (Nat.cast_nonneg n)
  -- the number and what it is rounded to are between the same two multiples of a power of two
  have hlarge := two_pow_le_of_excess hpos
  obtain ⟨hlo, hhi⟩ := nearestDiv_between n (excess n)
  have hdiv := Nat.div_add_mod' n (2 ^ excess n)
  have hmod := Nat.mod_lt n (Nat.two_pow_pos (excess n))
  have hbelow : roundNat n ≤ n + 2 ^ excess n := by
    have := Nat.mul_le_mul_right (2 ^ excess n) hhi
    rw [Nat.add_mul] at this
    unfold roundNat
    omega
  have habove : n ≤ roundNat n + 2 ^ excess n := by
    have := Nat.mul_le_mul_right (2 ^ excess n) hlo
    unfold roundNat
    omega
  have hplace : (2 : Rat) ^ excess n ≤ epsilon * n := by
    unfold epsilon
    rw [one_div, inv_mul_eq_div, le_div_iff₀ (by positivity), ← pow_add, add_comm]
    exact_mod_cast hlarge
  have hbelow : (roundNat n : Rat) ≤ n + 2 ^ excess n := by exact_mod_cast hbelow
  have habove : (n : Rat) ≤ roundNat n + 2 ^ excess n := by exact_mod_cast habove
  rw [abs_le]
  constructor <;> linarith

theorem abs_roundUnits_sub_le {n : Int} (h : (roundUnits n).natAbs < infinityUnits) :
    |(roundUnits n : Rat) - n| ≤ epsilon * |(n : Rat)| := by
  have hnear := abs_roundNat_sub_le n.natAbs
  obtain ⟨s, hs⟩ : ∃ s : Sign, n = s.apply n.natAbs :=
    (Int.natAbs_eq n).elim (fun hn => ⟨.positive, hn⟩) fun hn => ⟨.negative, hn⟩
  have hround := roundUnits_apply s n.natAbs
  rw [← hs] at hround
  -- what does not overflow is not cut off
  have hin : min (roundNat n.natAbs) infinityUnits = roundNat n.natAbs := by
    refine min_eq_left (Nat.le_of_not_lt fun hout => ?_)
    rw [hround, min_eq_right hout.le, natAbs_apply] at h
    exact lt_irrefl _ h
  rw [hround, hin]
  generalize n.natAbs = m at *
  subst hs
  cases s with
  | positive => simpa [Sign.apply] using hnear
  | negative =>
    rw [abs_sub_comm] at hnear
    simpa [Sign.apply, neg_add_eq_sub] using hnear

theorem abs_toRat_sub_le {n : Int} (hz : units z = roundUnits n) (h : z.isFinite = true) :
    |toRat z - n / 2 ^ 1074| ≤ epsilon * |(n : Rat) / 2 ^ 1074| := by
  have hnear := abs_roundUnits_sub_le (hz ▸ (isFinite_iff_units.mp h).2)
  have hpos : (0 : Rat) < 2 ^ 1074 := by positivity
  have hvalue : toRat z = roundUnits n / 2 ^ 1074 := by
    rw [← hz]
    rfl
  rw [hvalue, ← sub_div, abs_div, abs_div, abs_of_pos hpos, ← mul_div_assoc]
  exact div_le_div_of_nonneg_right hnear hpos.le

/-- A sum of finite doubles is off by at most the fraction `epsilon` of it, unless it overflows. -/
theorem abs_add_sub_le (hx : x.isFinite = true) (hy : y.isFinite = true)
    (h : (x + y).isFinite = true) :
    |toRat (x + y) - (toRat x + toRat y)| ≤ epsilon * |toRat x + toRat y| := by
  have hsum : toRat x + toRat y = (units x + units y : Int) / 2 ^ 1074 := by
    rw [Int.cast_add, add_div]
    rfl
  rw [hsum]
  exact abs_toRat_sub_le (add_denotes hx hy).2 h

/-- A difference of finite doubles is off by at most the fraction `epsilon` of it, unless it
overflows. -/
theorem abs_sub_sub_le (hx : x.isFinite = true) (hy : y.isFinite = true)
    (h : (x - y).isFinite = true) :
    |toRat (x - y) - (toRat x - toRat y)| ≤ epsilon * |toRat x - toRat y| := by
  have hdifference : toRat x - toRat y = (units x - units y : Int) / 2 ^ 1074 := by
    rw [Int.cast_sub, sub_div]
    rfl
  rw [hdifference]
  exact abs_toRat_sub_le (units_sub hx hy) h

/-- A double that the exact difference is not below is not above the rounded one either. -/
theorem le_sub (hx : x.isFinite = true) (hy : y.isFinite = true) (hz : z.isFinite = true)
    (hle : toRat z ≤ toRat x - toRat y) : toRat z ≤ toRat (x - y) := by
  have hle : units z ≤ units x - units y := by
    have hle : (units z : Rat) / 2 ^ 1074 ≤ units x / 2 ^ 1074 - units y / 2 ^ 1074 := hle
    rw [← sub_div, div_le_div_iff_of_pos_right (by positivity)] at hle
    exact_mod_cast hle
  rw [toRat_le_iff, units_sub hx hy, ← roundUnits_units hz]
  exact roundUnits_mono hle

/-- A sum of what is not negative stays below a double that the exact sum is not above. -/
theorem add_between (hx : x.isFinite = true) (hy : y.isFinite = true) (hz : z.isFinite = true)
    (hpos : 0 ≤ toRat y) (hle : toRat x + toRat y ≤ toRat z) :
    (x + y).isFinite = true ∧ toRat x ≤ toRat (x + y) ∧ toRat (x + y) ≤ toRat z := by
  have htwo : (0 : Rat) < 2 ^ 1074 := by positivity
  have hpos : 0 ≤ units y := by
    have hpos : 0 ≤ (units y : Rat) / 2 ^ 1074 := hpos
    rw [le_div_iff₀ htwo, zero_mul] at hpos
    exact_mod_cast hpos
  have hle : units x + units y ≤ units z := by
    have hle : (units x : Rat) / 2 ^ 1074 + units y / 2 ^ 1074 ≤ units z / 2 ^ 1074 := hle
    rw [← add_div, div_le_div_iff_of_pos_right htwo] at hle
    exact_mod_cast hle
  have hlo := units_le_add hx hy hpos
  have hhi : units (x + y) ≤ units z := by
    rw [(show units (x + y) = _ from (add_denotes hx hy).2), ← roundUnits_units hz]
    exact roundUnits_mono hle
  exact ⟨isFinite_of_units_le hx hz (isNaN_add hx hy) hlo hhi, toRat_le_iff.mpr hlo,
    toRat_le_iff.mpr hhi⟩

end Sums

end Binary64
end StepSignal
