import StepSignal.Proofs.Binary64.Order

/-!
# Quotients

Rounding a value that is at most some double gives at most that double, so the quotient of a finite
double by one or more is finite. A natural number is rounded once on its way to a double, and the
double of one above zero is one or more.

A quotient is rounded from its integer part and from two bits about what is left over. Shifting its
mantissa further to the right keeps it at most the quotient, and less than it when the round bit is
set, which is the only case that rounds up.
-/

namespace StepSignal
namespace Binary64

open Float.Model (UnpackedFloat Format totalExponent)
open Float.Model.UnpackedFloat

/-! ## Rounding quotients -/

/-- A mantissa with its residual bits is at most a fraction, and less than it if it may be rounded
up. -/
def AtMost (em : ExtendedMantissa) (num den : Nat) : Prop :=
  em.mantissa * den ≤ num ∧ (em.roundBit = true → em.mantissa * den < num)

/-- The integer part of a quotient, with what is known about the rest. -/
theorem atMost_quotient (num den : Nat) :
    AtMost (.ofMantissaAndAccuracy (num / den) (accuracyOfFraction (num % den) den)) num den := by
  have hdiv := Nat.div_add_mod' num den
  by_cases hexact : num % den = 0
  · rw [accuracyOfFraction, if_pos hexact]
    exact ⟨by simp only [ExtendedMantissa.ofMantissaAndAccuracy]; omega, nofun⟩
  · rw [accuracyOfFraction, if_neg hexact]
    have hlt : num / den * den < num := by omega
    cases compare (2 * (num % den)) den <;> exact ⟨hlt.le, fun _ => hlt⟩

theorem AtMost.shiftRightOne {em : ExtendedMantissa} {num den : Nat} (h : AtMost em num den)
    (hden : 0 < den) : AtMost em.shiftRightOne num (2 * den) := by
  have hdiv := Nat.div_add_mod' em.mantissa 2
  unfold AtMost ExtendedMantissa.shiftRightOne
  dsimp only
  rw [← mul_assoc]
  refine ⟨(Nat.mul_le_mul_right den (by omega)).trans h.1, fun hbit => ?_⟩
  have hodd : em.mantissa / 2 * 2 < em.mantissa := by
    simp only [bne_iff_ne] at hbit
    omega
  exact (Nat.mul_lt_mul_of_pos_right hodd hden).trans_le h.1

theorem AtMost.shiftRight {em : ExtendedMantissa} {num den : Nat} (h : AtMost em num den)
    (hden : 0 < den) (k : Nat) : AtMost (em >>> k) num (2 ^ k * den) := by
  induction k with
  | zero => rwa [pow_zero, one_mul]
  | succ k ih =>
    have hstep : em >>> (k + 1) = (em >>> k).shiftRightOne := rfl
    rw [hstep, pow_succ', mul_assoc]
    exact ih.shiftRightOne (Nat.mul_pos (Nat.two_pow_pos k) hden)

/-- A fraction that is at most a whole number is not rounded above it. -/
theorem AtMost.roundedMantissa_le {em : ExtendedMantissa} {num den m : Nat} (h : AtMost em num den)
    (hden : 0 < den) (hle : num ≤ m * den) : em.roundedMantissa ≤ m := by
  obtain ⟨mantissa, roundBit, stickyBit⟩ := em
  have hmantissa : mantissa ≤ m := Nat.le_of_mul_le_mul_right (h.1.trans hle) hden
  cases roundBit with
  | false => cases stickyBit <;> exact hmantissa
  | true =>
    have hlt : mantissa < m := Nat.lt_of_mul_lt_mul_right ((h.2 rfl).trans_le hle)
    cases stickyBit with
    | false =>
      show mantissa + mantissa % 2 ≤ m
      omega
    | true => exact hlt

/-- A value that is at most a mantissa of 53 bits at some exponent is rounded at that exponent or
below. -/
theorem targetExponent_le {n m : Nat} {t e : Int} (hm : m < 2 ^ 53) (hte : t ≤ e) (he : -1074 ≤ e)
    (hle : n ≤ m * 2 ^ (e - t).toNat) :
    Format.binary64.targetExponent (totalExponent n t) ≤ e := by
  have hlt : n < 2 ^ (53 + (e - t).toNat) := by
    rw [pow_add]
    exact hle.trans_lt (Nat.mul_lt_mul_of_pos_right hm (Nat.two_pow_pos _))
  have hlog : n.log2 < 53 + (e - t).toNat := by
    by_cases hzero : n = 0
    · rw [hzero, Nat.log2_zero]
      omega
    · exact (Nat.log2_lt hzero).mpr hlt
  rw [targetExponent_eq]
  omega

/-- Shifting to the target exponent does not go beyond an exponent at which the value has 53 bits.
-/
theorem shift_le {n m : Nat} {t e : Int} (hm : m < 2 ^ 53) (hte : t ≤ e) (he : -1074 ≤ e)
    (hle : n ≤ m * 2 ^ (e - t).toNat) {k : Nat}
    (hk : (Format.binary64.targetExponent (totalExponent n t) - t).toNat = k) :
    -1074 ≤ t + k ∧ t + k ≤ e ∧ (e - t).toNat = (e - (t + k)).toNat + k := by
  have htarget := targetExponent_le hm hte he hle
  have hmin : -1074 ≤ Format.binary64.targetExponent (totalExponent n t) := by
    rw [targetExponent_eq]
    exact le_max_right _ _
  omega

/-- A quotient that is at most a mantissa of 53 bits at some exponent is rounded to zero or to a
value with this exponent or a smaller one. -/
theorem roundWithAccuracy_quotient (s : Sign) {num den m : Nat} {t e : Int} (hden : 0 < den)
    (hm : m < 2 ^ 53) (hte : t ≤ e) (he : -1074 ≤ e) (hle : num ≤ m * 2 ^ (e - t).toNat * den) :
    let rounded := roundWithAccuracy Format.binary64 s (num / den) t
      (accuracyOfFraction (num % den) den)
    rounded = .zero s ∨ ∃ M E, ∃ hM : 0 < M, rounded = .finite s M E hM ∧ -1074 ≤ E ∧ E ≤ e := by
  have hfloor : num / den ≤ m * 2 ^ (e - t).toNat := Nat.div_le_of_le_mul (by rwa [mul_comm])
  unfold roundWithAccuracy shiftToTargetExponent shiftToExponent
  dsimp only
  generalize hk : (Format.binary64.targetExponent (totalExponent (num / den) t) - t).toNat = k
  obtain ⟨hmin, hmax, hexp⟩ := shift_le hm hte he hfloor hk
  have hrounded := ((atMost_quotient num den).shiftRight hden k).roundedMantissa_le
    (m := m * 2 ^ (e - (t + k)).toNat) (Nat.mul_pos (Nat.two_pow_pos k) hden)
    (by rwa [hexp, pow_add, ← mul_assoc, mul_assoc _ (2 ^ k) den] at hle)
  -- a carry is shifted back, which does not go further than the bound either
  generalize ExtendedMantissa.roundedMantissa _ = r at hrounded ⊢
  generalize hj : (Format.binary64.targetExponent (totalExponent r (t + k)) - (t + k)).toNat = j
  obtain ⟨hmin', hmax', -⟩ := shift_le hm hmax he hrounded hj
  split
  · exact .inl rfl
  · rename_i hne
    exact .inr ⟨_, _, Nat.pos_of_ne_zero hne, rfl, hmin', hmax'⟩

/-! ## Finite quotients -/

theorem isFinite_ofFields (s : Sign) {field : Nat} (h : field ≠ 2047) (fraction : Nat) :
    (ofFields s field fraction).isFinite = true := by
  unfold ofFields
  rw [if_neg h]
  split
  · split <;> rfl
  · rfl

/-- A value whose exponent is not too large is packed as a finite one. -/
theorem isFinite_pack {s : Sign} {m : Nat} {e : Int} (h : 0 < m) (hmin : -1074 ≤ e)
    (hmax : e ≤ 971) : (Float.Model.pack (.finite s m e h)).unpack.isFinite = true := by
  have hbias : e + (Format.binary64.exponentBias : Int)
      + Format.binary64.mantissaBitsWithoutImplicit = e + 1075 := by
    rw [add_assoc]
    rfl
  rw [unpack_model_pack, UnpackedFloat.pack]
  simp only [hbias]
  rw [if_neg (by omega)]
  split <;> rw [unpack_packComponents] <;> refine isFinite_ofFields _ ?_ _
  · rw [BitVec.toNat_ofNat]
    omega
  · decide

/-- What one counts as, in units of `2 ^ (-1074)`. -/
def oneUnits : Nat := 2 ^ 1074

theorem oneUnits_pos : 0 < oneUnits := by
  unfold oneUnits
  positivity

theorem units_one : units 1 = oneUnits := by decide +kernel

/-- What is one or more is positive. -/
theorem positive_of_oneUnits_le {s : Sign} {n : Nat} (h : (oneUnits : Int) ≤ s.apply n) :
    s = .positive := by
  have hpos := oneUnits_pos
  cases s with
  | positive => rfl
  | negative =>
    have hneg : (oneUnits : Int) ≤ -n := h
    omega

/-- The quotient of a canonical value by one or more is packed as a finite one. -/
theorem isFinite_pack_div {s₁ s₂ : Sign} {m₁ m₂ : Nat} {e₁ e₂ : Int} {hm₁ : 0 < m₁} {hm₂ : 0 < m₂}
    (hc : Canonical (.finite s₁ m₁ e₁ hm₁)) (he₂ : -1074 ≤ e₂)
    (hone : oneUnits ≤ m₂ * 2 ^ (e₂ + 1074).toNat) :
    (Float.Model.pack (UnpackedFloat.div Format.binary64 (.finite s₁ m₁ e₁ hm₁)
      (.finite s₂ m₂ e₂ hm₂))).unpack.isFinite = true := by
  obtain ⟨hm, he, hmax, -⟩ := hc
  have hlog₁ : m₁.log2 < 53 := (Nat.log2_lt hm₁.ne').mpr hm
  have hlog₂ : 0 ≤ m₂.log2 + e₂ := by
    have hlt : 2 ^ 1074 < 2 ^ (m₂.log2 + 1 + (e₂ + 1074).toNat) := by
      rw [pow_add _ (m₂.log2 + 1)]
      exact hone.trans_lt (Nat.mul_lt_mul_of_pos_right Nat.lt_log2_self (Nat.two_pow_pos _))
    have := (Nat.pow_lt_pow_iff_right (by decide)).mp hlt
    omega
  simp only [UnpackedFloat.div, divCore, Nat.shiftLeft_eq]
  generalize ht : min (e₁ - e₂) (Format.binary64.targetExponent
    (totalExponent m₁ e₁ - totalExponent m₂ e₂)) = t
  have hte : t ≤ e₁ := by
    have htarget : Format.binary64.targetExponent (totalExponent m₁ e₁ - totalExponent m₂ e₂)
        = max (m₁.log2 + e₁ - (m₂.log2 + e₂) - 53) (-1074) := by
      simp only [Format.targetExponent, totalExponent, Format.mantissaBits, Format.minExponent]
      norm_num
      omega
    omega
  have hle : m₁ * 2 ^ (e₁ - e₂ - t).toNat ≤ m₁ * 2 ^ (e₁ - t).toNat * m₂ := by
    rw [mul_assoc]
    refine Nat.mul_le_mul_left m₁ (Nat.le_of_mul_le_mul_left ?_ oneUnits_pos)
    calc oneUnits * 2 ^ (e₁ - e₂ - t).toNat
        ≤ m₂ * 2 ^ (e₂ + 1074).toNat * 2 ^ (e₁ - e₂ - t).toNat := Nat.mul_le_mul_right _ hone
      _ = m₂ * 2 ^ (1074 + (e₁ - t).toNat) := by
          rw [mul_assoc, ← pow_add]
          congr 2
          omega
      _ = oneUnits * (2 ^ (e₁ - t).toNat * m₂) := by
          rw [pow_add, mul_comm, mul_assoc]
          rfl
  rcases roundWithAccuracy_quotient (s₁ / s₂) hm₂ hm hte he hle with
    hzero | ⟨M, E, hM, hfinite, hlo, hhi⟩
  · rw [hzero, unpack_pack_zero]
    rfl
  · rw [hfinite]
    exact isFinite_pack hM hlo (hhi.trans hmax)

variable {x y : Float}

/-- A finite double divided by one or more is finite. -/
theorem isFinite_div (hx : x.isFinite = true) (hy : 1 ≤ y) : (x / y).isFinite = true := by
  obtain ⟨-, hnumber, hone⟩ := le_iff_units.mp hy
  have hx : x.toModel.unpack.isFinite = true := hx
  have hcx : Canonical x.toModel.unpack := canonical_unpack _
  have hcy : Canonical y.toModel.unpack := canonical_unpack _
  rw [isNaN_eq_false_iff] at hnumber
  rw [units_one, units] at hone
  show (Float.Model.pack (UnpackedFloat.div Format.binary64 x.toModel.unpack
    y.toModel.unpack)).unpack.isFinite = true
  generalize x.toModel.unpack = u at *
  generalize y.toModel.unpack = v at *
  have hzero : ∀ s, (Float.Model.pack (.zero s)).unpack.isFinite = true := fun s => by
    rw [unpack_pack_zero]
    rfl
  cases v with
  | notANumber => exact absurd rfl hnumber
  | zero s₂ => exact absurd hone (not_le_of_gt (Int.natCast_pos.mpr oneUnits_pos))
  | infinity s₂ =>
    cases u with
    | notANumber | infinity s₁ => cases hx
    | zero s₁ | finite s₁ m₁ e₁ hm₁ => exact hzero _
  | finite s₂ m₂ e₂ hm₂ =>
    cases u with
    | notANumber | infinity s₁ => cases hx
    | zero s₁ => exact hzero _
    | finite s₁ m₁ e₁ hm₁ =>
      obtain rfl := positive_of_oneUnits_le hone
      exact isFinite_pack_div hcx hcy.2.1 (Int.ofNat_le.mp hone)

/-- Only a finite double has a finite quotient. -/
theorem isFinite_of_isFinite_div (h : (x / y).isFinite = true) : x.isFinite = true := by
  have hnan : (Float.Model.pack .notANumber).unpack.isFinite = false := rfl
  have hinfinity : ∀ s, (Float.Model.pack (.infinity s)).unpack.isFinite = false := fun s => by
    cases s <;> rfl
  have h : (Float.Model.pack (UnpackedFloat.div Format.binary64 x.toModel.unpack
    y.toModel.unpack)).unpack.isFinite = true := h
  show x.toModel.unpack.isFinite = true
  generalize x.toModel.unpack = u at *
  generalize y.toModel.unpack = v at *
  cases u with
  | zero s₁ | finite s₁ m₁ e₁ hm₁ => rfl
  | notANumber => exact absurd (h.symm.trans hnan) nofun
  | infinity s₁ =>
    cases v with
    | notANumber | infinity s₂ => exact absurd (h.symm.trans hnan) nofun
    | zero s₂ | finite s₂ m₂ e₂ hm₂ => exact absurd (h.symm.trans (hinfinity _)) nofun

/-! ## Whole numbers -/

/-- The product of two finite values is the exact one, rounded, if it has bits enough. -/
theorem pack_mul_denotes {m₁ m₂ : Nat} {e₁ e₂ : Int} (hm₁ : 0 < m₁) (hm₂ : 0 < m₂)
    (he : -1074 ≤ e₁ + e₂) (hfull : 2 ^ 52 ≤ m₁ * m₂) :
    Denotes (Float.Model.pack (UnpackedFloat.mul Format.binary64 (.finite .positive m₁ e₁ hm₁)
      (.finite .positive m₂ e₂ hm₂))).unpack
      (roundUnits (m₁ * m₂ * 2 ^ (e₁ + e₂ + 1074).toNat : Nat)) := by
  have hpos : 0 < m₁ * m₂ := Nat.mul_pos hm₁ hm₂
  have hlog : 52 ≤ (m₁ * m₂).log2 := (Nat.le_log2 hpos.ne').mpr hfull
  obtain ⟨M, E, hM, heq, hlt, hE, hfull, hunits⟩ :=
    roundWithAccuracy_eq .positive hpos he (by rw [targetExponent_eq]; omega)
  have hround := roundUnits_apply .positive (m₁ * m₂ * 2 ^ (e₁ + e₂ + 1074).toNat)
  rw [Sign.apply] at hround
  have hmul : UnpackedFloat.mul Format.binary64 (.finite .positive m₁ e₁ hm₁)
    (.finite .positive m₂ e₂ hm₂) = .finite .positive M E hM := heq
  rw [hmul, hround, ← hunits]
  exact pack_finite_denotes hM hlt hE hfull

theorem one_le_of_denotes {z : Int} (h : Denotes x.toModel.unpack z) (hz : oneUnits ≤ z) :
    1 ≤ x := by
  rw [le_iff_units, units_one]
  exact ⟨rfl, isNaN_eq_false_iff.mpr h.1, hz.trans_eq h.2.symm⟩

/-- One or more is not rounded below one. -/
theorem oneUnits_le_roundUnits {n : Nat} (h : oneUnits ≤ n) : (oneUnits : Int) ≤ roundUnits n := by
  have hone : roundUnits oneUnits = oneUnits := by decide +kernel
  exact hone.symm.le.trans (roundUnits_mono (Int.ofNat_le.mpr h))

theorem toFloat_denotes (w : UInt64) :
    Denotes w.toFloat.toModel.unpack (roundUnits (w.toNat * oneUnits : Nat)) := by
  have hunits : ((w.toNat * oneUnits : Nat) : Int) = w.toNat * 2 ^ ((0 : Int) + 1074).toNat := by
    rw [oneUnits, Nat.cast_mul, Nat.cast_pow]
    rfl
  rw [hunits]
  exact pack_normalize_denotes w.toNat .positive (by decide)

/-- A canonical value of one or more has no small exponent. -/
theorem exponent_of_oneUnits_le {m : Nat} {e : Int} (hm : m < 2 ^ 53)
    (hone : oneUnits ≤ m * 2 ^ (e + 1074).toNat) : -1022 ≤ e := by
  by_contra hlt
  have hsmall : m * 2 ^ (e + 1074).toNat < oneUnits :=
    calc m * 2 ^ (e + 1074).toNat < 2 ^ 53 * 2 ^ (e + 1074).toNat :=
          Nat.mul_lt_mul_of_pos_right hm (Nat.two_pow_pos _)
      _ = 2 ^ (53 + (e + 1074).toNat) := (pow_add 2 53 _).symm
      _ ≤ oneUnits := by
          unfold oneUnits
          exact pow_le_pow_right₀ one_le_two (by omega)
  omega

theorem two_pow_mul_le {a b c : Nat} (h : a + b ≤ c) : 2 ^ a * 2 ^ b ≤ 2 ^ c := by
  rw [← pow_add]
  exact Nat.pow_le_pow_right (by decide) h

/-- A whole number of 53 bits is not rounded. -/
theorem whole_of_denotes {n : Nat} (hn : n < 2 ^ 53)
    (h : Denotes x.toModel.unpack (roundUnits (n * oneUnits : Nat))) :
    x.isFinite = true ∧ units x = (n * oneUnits : Nat) := by
  have hlt : n * oneUnits < infinityUnits := by
    refine (Nat.mul_lt_mul_of_pos_right hn oneUnits_pos).trans_le ?_
    unfold oneUnits infinityUnits
    exact two_pow_mul_le (by decide)
  have hround : roundUnits (n * oneUnits : Nat) = (n * oneUnits : Nat) := by
    rw [show roundUnits (n * oneUnits : Nat) = _ from roundUnits_apply .positive _, oneUnits,
      roundNat_mul_two_pow 1074 hn]
    exact congrArg Nat.cast (min_eq_left hlt.le)
  obtain ⟨hnumber, hunits⟩ := h
  have hunits : units x = (n * oneUnits : Nat) := hunits.trans hround
  refine ⟨?_, hunits⟩
  rw [isFinite_iff_units, hunits]
  exact ⟨isNaN_eq_false_iff.mpr hnumber, hlt⟩

/-- One or more stays the same when it is taken once. -/
theorem mul_one_denotes (hx : x.isFinite = true) (hone : 1 ≤ x) :
    Denotes (x * Float.ofBits 0x3FF0000000000000).toModel.unpack (units x) := by
  obtain ⟨-, -, hone⟩ := le_iff_units.mp hone
  have hround := roundUnits_units hx
  have hc : Canonical x.toModel.unpack := canonical_unpack _
  have hx : x.toModel.unpack.isFinite = true := hx
  have hproduct : (x * Float.ofBits 0x3FF0000000000000).toModel.unpack
      = (Float.Model.pack (UnpackedFloat.mul Format.binary64 x.toModel.unpack
        (.finite .positive (2 ^ 52) (-52) (Nat.two_pow_pos 52)))).unpack := rfl
  rw [hproduct, ← hround]
  rw [units_one] at hone
  unfold units at hone ⊢
  generalize x.toModel.unpack = u at *
  cases u with
  | notANumber | infinity s => cases hx
  | zero s => exact absurd hone (not_le_of_gt (Int.natCast_pos.mpr oneUnits_pos))
  | finite s m e hm =>
    obtain rfl := positive_of_oneUnits_le hone
    have he := exponent_of_oneUnits_le hc.1 (Int.ofNat_le.mp hone)
    have hunits : m * 2 ^ (e + 1074).toNat = m * 2 ^ 52 * 2 ^ (e + -52 + 1074).toNat := by
      rw [mul_assoc, ← pow_add]
      congr 2
      omega
    rw [unpackedUnits, hunits]
    exact pack_mul_denotes hm _ (by omega) (Nat.le_mul_of_pos_left _ hm)

/-- A natural number is rounded once on its way to a double. -/
theorem ofNat_denotes (n : Nat) :
    Denotes (Float.ofNat n).toModel.unpack (roundUnits (n * oneUnits : Nat)) := by
  rcases Nat.eq_zero_or_pos n with rfl | hn
  · rw [Nat.zero_mul, Nat.cast_zero, roundUnits_zero]
    exact ⟨isNaN_eq_false_iff.mp rfl, rfl⟩
  unfold Float.ofNat OfScientific.ofScientific instOfScientificFloat Float.ofScientific
  dsimp only
  split
  · -- up to 53 bits the number is a machine word, which is then taken once
    rename_i hsmall
    have hword : n.toUInt64.toNat = n := by
      rw [Nat.toUInt64, UInt64.toNat_ofNat', Nat.mod_eq_of_lt (by omega)]
    have hdenotes := toFloat_denotes n.toUInt64
    rw [hword] at hdenotes
    have hone : 1 ≤ n.toUInt64.toFloat :=
      one_le_of_denotes hdenotes (oneUnits_le_roundUnits (Nat.le_mul_of_pos_left _ hn))
    rw [← show units n.toUInt64.toFloat = _ from hdenotes.2]
    exact mul_one_denotes (whole_of_denotes hsmall.1 hdenotes).1 hone
  · have hunits : n <<< 53 * 10 ^ 0 * 2 ^ ((-53 : Int) + 0 + 1074).toNat = n * oneUnits := by
      rw [Nat.shiftLeft_eq, pow_zero, mul_one, mul_assoc, ← pow_add, oneUnits]
      congr 2
    have hshifted : 0 < n <<< 53 := Nat.shiftLeft_pos_iff.mpr hn
    have hone : 0 < 10 ^ 0 := Nat.one_pos
    have hscientific : Float.Model.ofScientific n 0 = Float.Model.pack (UnpackedFloat.mul
        Format.binary64 (.finite .positive (n <<< 53) (-53) hshifted)
        (.finite .positive (10 ^ 0) 0 hone)) := by
      have hbits : (0 : Int) < 2 ^ Format.binary64.exponentBits := by decide
      unfold Float.Model.ofScientific UnpackedFloat.ofScientific
      rw [dif_neg hn.ne', if_neg (by decide), if_neg (by omega), if_pos le_rfl]
      rfl
    have hfull : 2 ^ 52 ≤ n <<< 53 * 10 ^ 0 := by
      rw [Nat.shiftLeft_eq]
      omega
    show Denotes (Float.Model.ofScientific n 0).unpack _
    rw [hscientific, ← hunits]
    exact pack_mul_denotes hshifted hone (by decide) hfull

/-- The double of a whole number above zero is one or more. -/
theorem one_le_ofNat {n : Nat} (hn : 0 < n) : 1 ≤ Float.ofNat n :=
  one_le_of_denotes (ofNat_denotes n) (oneUnits_le_roundUnits (Nat.le_mul_of_pos_left _ hn))

/-- A value that is rounded up to a whole number above zero is finite. -/
theorem isFinite_of_ceil?_eq {n : Nat} (h : ceil? x = some (n + 1)) : x.isFinite = true := by
  unfold ceil? at h
  split at h
  · cases h
  rename_i hlimit
  have hceil : ceil x = n + 1 := Option.some.inj h
  have hwhole : x.toUInt64 = x.toModel.unpack.toUInt64 := rfl
  -- what is not a number or below all of them counts as zero
  have hnone : x.toUInt64 = 0 → ¬ (0 : UInt64).toFloat < x → ceil x ≠ n + 1 := fun hz hlt => by
    unfold ceil
    dsimp only
    rw [hz, if_neg hlt]
    simp
  show x.toModel.unpack.isFinite = true
  cases hx : x.toModel.unpack with
  | zero s | finite s m e hm => rfl
  | notANumber =>
    refine absurd hceil (hnone (by rw [hwhole, hx]; rfl) fun hlt => ?_)
    exact isNaN_eq_false_iff.mp (lt_iff_units.mp hlt).2.1 hx
  | infinity s =>
    cases s with
    | negative =>
      refine absurd hceil (hnone (by rw [hwhole, hx]; rfl) fun hlt => ?_)
      have hlt := (lt_iff_units.mp hlt).2.2
      have hneg : units x = -infinityUnits := by rw [units, hx]; rfl
      have hzero : units (0 : UInt64).toFloat = 0 := rfl
      omega
    | positive =>
      refine absurd ?_ hlimit
      have htop : units x = infinityUnits := by rw [units, hx]; rfl
      have hplace : units placeLimit ≤ infinityUnits := by decide +kernel
      rw [le_iff_units, htop]
      exact ⟨rfl, isNaN_eq_false_iff.mpr (by simp [hx]), hplace⟩

/-! ## Zero -/

/-- A finite double taken zero times is zero. -/
theorem zero_mul_denotes (hx : x.isFinite = true) :
    Denotes (Float.ofInt 0 * x).toModel.unpack 0 := by
  have hx : x.toModel.unpack.isFinite = true := hx
  have hzero : (Float.ofInt 0).toModel.unpack = .zero .positive := rfl
  have hproduct : ∃ s, UnpackedFloat.mul Format.binary64 (.zero .positive) x.toModel.unpack
      = .zero s := by
    generalize x.toModel.unpack = u at *
    cases u with
    | notANumber | infinity s => cases hx
    | zero s | finite s m e hm => exact ⟨_, rfl⟩
  obtain ⟨s, hs⟩ := hproduct
  show Denotes (Float.Model.pack (UnpackedFloat.mul Format.binary64 (Float.ofInt 0).toModel.unpack
    x.toModel.unpack)).unpack 0
  rw [hzero, hs]
  exact pack_zero_denotes s

theorem zero_mul_isFinite (hx : x.isFinite = true) :
    (Float.ofInt 0 * x).isFinite = true ∧ units (Float.ofInt 0 * x) = 0 := by
  obtain ⟨hnumber, hzero⟩ := zero_mul_denotes hx
  have hzero : units (Float.ofInt 0 * x) = 0 := hzero
  refine ⟨?_, hzero⟩
  rw [isFinite_iff_units, hzero]
  exact ⟨isNaN_eq_false_iff.mpr hnumber, infinityUnits_pos⟩

/-- Adding a finite double zero times makes a double no smaller. -/
theorem le_add_zero_mul (hx : x.isFinite = true) (hy : y.isFinite = true) :
    x ≤ x + Float.ofInt 0 * y := by
  obtain ⟨hfinite, hzero⟩ := zero_mul_isFinite hy
  have hle : units x ≤ units (x + Float.ofInt 0 * y) := units_le_add hx hfinite hzero.ge
  exact le_iff_units.mpr ⟨isNaN_of_isFinite hx, isNaN_add hx hfinite, hle⟩

end Binary64
end StepSignal
