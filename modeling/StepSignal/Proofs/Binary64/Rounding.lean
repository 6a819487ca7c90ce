import StepSignal.Proofs.Binary64.Units

/-!
# Rounding of differences

The exact difference of two finite doubles is a whole number of units, so rounding it is an
operation on integers: of `n` units the leading 53 bits are kept, rounded to nearest with ties to
even, and what is beyond the largest double becomes an infinity.

    units (a - b) = roundUnits (units a - units b)

`roundUnits` is monotone, hence so is the subtraction of doubles in each argument.
-/

namespace StepSignal
namespace Binary64

open Float.Model (UnpackedFloat Format totalExponent)
open Float.Model.UnpackedFloat

/-! ## Dividing by a power of two -/

/-- The whole number nearest to `n / 2 ^ k`, the even one of two equally near. -/
def nearestDiv (n k : Nat) : Nat :=
  n / 2 ^ k + (if 2 * (n % 2 ^ k) < 2 ^ k then 0
    else if 2 * (n % 2 ^ k) = 2 ^ k then n / 2 ^ k % 2 else 1)

/-- What the bits of an extended mantissa say after `k` shifts. -/
theorem shiftRight_bits (m k : Nat) :
    let em := ExtendedMantissa.ofMantissaAndAccuracy m .exact >>> k
    em.mantissa = m / 2 ^ k ∧ em.roundBit = decide (2 ^ k ≤ 2 * (m % 2 ^ k)) ∧
      em.stickyBit = decide (m % 2 ^ k ≠ 0 ∧ 2 * (m % 2 ^ k) ≠ 2 ^ k) := by
  induction k with
  | zero =>
    rw [pow_zero, Nat.div_one, Nat.mod_one]
    exact ⟨rfl, rfl, rfl⟩
  | succ k ih =>
    obtain ⟨hm, hr, hs⟩ := ih
    set em := ExtendedMantissa.ofMantissaAndAccuracy m .exact >>> k
    -- the last bit of the quotient becomes the round bit, and the old round bit makes it sticky
    have hstep : ExtendedMantissa.ofMantissaAndAccuracy m .exact >>> (k + 1) = em.shiftRightOne :=
      rfl
    have hlt : m % 2 ^ k < 2 ^ k := Nat.mod_lt _ (Nat.two_pow_pos k)
    have hmod : m % 2 ^ (k + 1) = m % 2 ^ k + 2 ^ k * (m / 2 ^ k % 2) := Nat.mod_pow_succ
    have hpow : 2 ^ (k + 1) = 2 * 2 ^ k := by ring
    dsimp only
    rw [hstep, hmod, hpow]
    rcases Nat.mod_two_eq_zero_or_one (m / 2 ^ k) with h | h
    · refine ⟨?_, ?_, ?_⟩
      · rw [ExtendedMantissa.shiftRightOne, hm, Nat.div_div_eq_div_mul, mul_comm]
      · simp only [ExtendedMantissa.shiftRightOne, hm, h]
        simp only [bne_self_eq_false, mul_zero, add_zero, Bool.false_eq, decide_eq_false_iff_not]
        omega
      · simp only [ExtendedMantissa.shiftRightOne, hr, hs, h, mul_zero, add_zero]
        rw [← Bool.decide_or]
        apply decide_eq_decide.mpr
        omega
    · refine ⟨?_, ?_, ?_⟩
      · rw [ExtendedMantissa.shiftRightOne, hm, Nat.div_div_eq_div_mul, mul_comm]
      · simp only [ExtendedMantissa.shiftRightOne, hm, h, mul_one]
        simp only [Nat.reduceBneDiff, Bool.true_eq, decide_eq_true_eq]
        omega
      · simp only [ExtendedMantissa.shiftRightOne, hr, hs, h, mul_one]
        rw [← Bool.decide_or]
        apply decide_eq_decide.mpr
        omega

theorem roundedMantissa_shiftRight (m k : Nat) :
    (ExtendedMantissa.ofMantissaAndAccuracy m .exact >>> k).roundedMantissa = nearestDiv m k := by
  obtain ⟨hm, hr, hs⟩ := shiftRight_bits m k
  generalize ExtendedMantissa.ofMantissaAndAccuracy m .exact >>> k = em at *
  obtain ⟨mantissa, roundBit, stickyBit⟩ := em
  dsimp only at hm hr hs
  subst hm hr hs
  have hlt : m % 2 ^ k < 2 ^ k := Nat.mod_lt _ (Nat.two_pow_pos k)
  unfold nearestDiv ExtendedMantissa.roundedMantissa ExtendedMantissa.accuracy
  -- what is shifted out is less than half of the last place, half of it, or more
  rcases lt_trichotomy (2 * (m % 2 ^ k)) (2 ^ k) with h | h | h
  · rw [decide_eq_false (not_le.mpr h), if_pos h]
    by_cases hz : m % 2 ^ k = 0
    · rw [decide_eq_false (fun hc => hc.1 hz)]
      rfl
    · rw [decide_eq_true ⟨hz, h.ne⟩]
      rfl
  · rw [decide_eq_true h.ge, decide_eq_false (fun hc => hc.2 h), if_neg h.not_lt, if_pos h]
    rfl
  · have hz : m % 2 ^ k ≠ 0 := by omega
    rw [decide_eq_true h.le, decide_eq_true ⟨hz, h.ne'⟩, if_neg h.not_gt, if_neg h.ne']
    rfl

theorem nearestDiv_zero (n : Nat) : nearestDiv n 0 = n := by
  rw [nearestDiv, pow_zero, Nat.div_one, Nat.mod_one, if_pos (by decide), add_zero]

theorem nearestDiv_mul_two_pow (q k : Nat) : nearestDiv (q * 2 ^ k) k = q := by
  rw [nearestDiv, Nat.mul_div_cancel _ (Nat.two_pow_pos k), Nat.mul_mod_left,
    if_pos (by simp), add_zero]

/-- Only the quotient matters. -/
theorem nearestDiv_scale (n k j : Nat) : nearestDiv (n * 2 ^ j) (k + j) = nearestDiv n k := by
  have hpos := Nat.two_pow_pos j
  have hdiv : n * 2 ^ j / 2 ^ (k + j) = n / 2 ^ k := by
    rw [pow_add, Nat.mul_div_mul_right _ _ hpos]
  have hmod : 2 * (n * 2 ^ j % 2 ^ (k + j)) = 2 * (n % 2 ^ k) * 2 ^ j := by
    rw [pow_add, Nat.mul_mod_mul_right, mul_assoc]
  rw [nearestDiv, nearestDiv, hdiv, hmod, pow_add]
  simp only [Nat.mul_lt_mul_right hpos, Nat.mul_left_inj hpos.ne']

theorem nearestDiv_mono {m n : Nat} (k : Nat) (h : m ≤ n) : nearestDiv m k ≤ nearestDiv n k := by
  have hm := Nat.div_add_mod m (2 ^ k)
  have hn := Nat.div_add_mod n (2 ^ k)
  have hle : m / 2 ^ k ≤ n / 2 ^ k := Nat.div_le_div_right h
  unfold nearestDiv
  rcases hle.lt_or_eq with hlt | heq
  · -- the quotients already differ, and rounding adds one at most
    split_ifs <;> omega
  · rw [heq] at hm ⊢
    have hmod : m % 2 ^ k ≤ n % 2 ^ k := by omega
    split_ifs <;> omega

/-! ## Rounding to 53 bits -/

/-- The number of bits that a number has too many. -/
def excess (n : Nat) : Nat := n.log2 - 52

/-- A number rounded to 53 bits. -/
def roundNat (n : Nat) : Nat := nearestDiv n (excess n) * 2 ^ excess n

theorem lt_two_pow_of_excess (n : Nat) : n < 2 ^ (53 + excess n) :=
  Nat.lt_log2_self.trans_le (Nat.pow_le_pow_right (by decide) (by unfold excess; omega))

theorem two_pow_le_of_excess {n : Nat} (h : 0 < excess n) : 2 ^ (52 + excess n) ≤ n := by
  have hne : n ≠ 0 := by rintro rfl; simp [excess] at h
  have hlog : n.log2 = 52 + excess n := by unfold excess at h ⊢; omega
  exact hlog ▸ Nat.log2_self_le hne

theorem excess_mono {m n : Nat} (h : m ≤ n) : excess m ≤ excess n := by
  by_contra hlt
  have hm := two_pow_le_of_excess (n := m) (by omega)
  have hn := lt_two_pow_of_excess n
  -- with more bits to drop, `m` would have more bits than `n` has at all
  have hpow : 2 ^ (53 + excess n) ≤ 2 ^ (52 + excess m) :=
    Nat.pow_le_pow_right (by decide) (by omega)
  omega

/-- A number of 53 bits with zeros behind them is not changed. -/
theorem roundNat_mul_two_pow {m : Nat} (k : Nat) (hm : m < 2 ^ 53) :
    roundNat (m * 2 ^ k) = m * 2 ^ k := by
  -- only some of the zeros are dropped
  have hle : excess (m * 2 ^ k) ≤ k := by
    by_contra hlt
    have h := two_pow_le_of_excess (n := m * 2 ^ k) (by omega)
    have hpow : 2 ^ (53 + k) ≤ 2 ^ (52 + excess (m * 2 ^ k)) :=
      Nat.pow_le_pow_right (by decide) (by omega)
    have hprod : m * 2 ^ k < 2 ^ (53 + k) := by
      rw [pow_add]
      exact Nat.mul_lt_mul_of_pos_right hm (Nat.two_pow_pos k)
    omega
  obtain ⟨j, hj⟩ := Nat.exists_eq_add_of_le' hle
  have hsplit : m * 2 ^ k = m * 2 ^ j * 2 ^ excess (m * 2 ^ k) := by
    conv_lhs => rw [hj, pow_add, ← mul_assoc]
  unfold roundNat
  generalize excess (m * 2 ^ k) = e at *
  rw [hsplit, nearestDiv_mul_two_pow]

theorem roundNat_mono {m n : Nat} (h : m ≤ n) : roundNat m ≤ roundNat n := by
  rcases (excess_mono h).lt_or_eq with hlt | heq
  · -- a power of two lies between the two numbers, and neither is rounded past it
    have hm : m ≤ 2 ^ (52 + excess n - excess m) * 2 ^ excess m := by
      rw [← pow_add, Nat.sub_add_cancel (by omega)]
      exact (lt_two_pow_of_excess m).le.trans (Nat.pow_le_pow_right (by decide) (by omega))
    have hn : 2 ^ 52 * 2 ^ excess n ≤ n := by
      rw [← pow_add]
      exact two_pow_le_of_excess (by omega)
    calc roundNat m
        ≤ nearestDiv (2 ^ (52 + excess n - excess m) * 2 ^ excess m) (excess m) * 2 ^ excess m :=
          Nat.mul_le_mul_right _ (nearestDiv_mono _ hm)
      _ = 2 ^ 52 * 2 ^ excess n := by
          rw [nearestDiv_mul_two_pow, ← pow_add, ← pow_add, Nat.sub_add_cancel (by omega)]
      _ = nearestDiv (2 ^ 52 * 2 ^ excess n) (excess n) * 2 ^ excess n := by
          rw [nearestDiv_mul_two_pow]
      _ ≤ roundNat n := Nat.mul_le_mul_right _ (nearestDiv_mono _ hn)
  · rw [roundNat, roundNat, heq]
    exact Nat.mul_le_mul_right _ (nearestDiv_mono _ h)

/-! ## The rounding of unpacked values -/

/-- The exponent at which a value is rounded. -/
theorem targetExponent_eq (m : Nat) (e : Int) :
    Format.binary64.targetExponent (totalExponent m e) = max (m.log2 + e - 52) (-1074) := by
  simp only [Format.targetExponent, totalExponent, Format.mantissaBits, Format.minExponent]
  norm_num
  omega

theorem log2_mul_two_pow {m : Nat} (k : Nat) (hm : m ≠ 0) : (m * 2 ^ k).log2 = m.log2 + k := by
  have hpos := Nat.two_pow_pos k
  refine (Nat.log2_eq_iff (Nat.mul_ne_zero hm hpos.ne')).mpr ⟨?_, ?_⟩
  · rw [pow_add]
    exact Nat.mul_le_mul_right _ (Nat.log2_self_le hm)
  · rw [Nat.add_right_comm, pow_add]
    exact Nat.mul_lt_mul_of_pos_right Nat.lt_log2_self hpos

/-- A mantissa that takes 53 bits, or fewer at the smallest exponent, is not shifted. -/
theorem shiftToTarget_self {m : Nat} {e : Int} (hm : m < 2 ^ 53) (he : -1074 ≤ e) :
    shiftToTargetExponent Format.binary64 m e .exact = (⟨m, false, false⟩, e) := by
  have hlog : m.log2 ≤ 52 := by
    by_cases h : m = 0
    · simp [h]
    · exact Nat.le_of_lt_succ ((Nat.log2_lt h).mpr hm)
  have hshift : (Format.binary64.targetExponent (totalExponent m e) - e).toNat = 0 := by
    rw [targetExponent_eq]
    omega
  rw [shiftToTargetExponent, shiftToExponent, hshift]
  exact Prod.ext rfl (add_zero e)

/-- A mantissa that rounding has made one bit too long is shifted back. -/
theorem shiftToTarget_carry {e : Int} (he : -1074 ≤ e) :
    shiftToTargetExponent Format.binary64 (2 ^ 53) e .exact = (⟨2 ^ 52, false, false⟩, e + 1) := by
  have hshift : (Format.binary64.targetExponent (totalExponent (2 ^ 53) e) - e).toNat = 1 := by
    rw [targetExponent_eq, Nat.log2_two_pow]
    omega
  rw [shiftToTargetExponent, shiftToExponent, hshift]
  rfl

/-- What the first shift of a rounding leaves: at most 53 bits, and all of them unless the exponent
is the smallest one. -/
theorem nearestDiv_bounds {m : Nat} {e t : Int} {k : Nat} (hm : 0 < m) (he : -1074 ≤ e)
    (ht : t = max (m.log2 + e - 52) (-1074)) (hk : t = e + k) :
    0 < nearestDiv m k ∧ nearestDiv m k ≤ 2 ^ 53 ∧ (2 ^ 52 ≤ nearestDiv m k ∨ t = -1074) := by
  have hupper : m ≤ 2 ^ 53 * 2 ^ k := by
    rw [← pow_add]
    exact Nat.lt_log2_self.le.trans (Nat.pow_le_pow_right (by decide) (by omega))
  -- away from the smallest exponent the shift leaves exactly 53 bits
  have hlower : t ≠ -1074 → 2 ^ 52 ≤ nearestDiv m k := fun hne => by
    have hpow : 2 ^ 52 * 2 ^ k ≤ m := by
      rw [← pow_add, show 52 + k = m.log2 by omega]
      exact Nat.log2_self_le hm.ne'
    exact (nearestDiv_mul_two_pow _ k).symm.le.trans (nearestDiv_mono k hpow)
  refine ⟨?_, ?_, ?_⟩
  · rcases Nat.eq_zero_or_pos k with rfl | hpos
    · rwa [nearestDiv_zero]
    · exact Nat.lt_of_lt_of_le (by decide) (hlower (by omega))
  · exact (nearestDiv_mono k hupper).trans (nearestDiv_mul_two_pow _ k).le
  · exact or_iff_not_imp_right.mpr hlower

/-- Rounding a positive value gives a canonical one, but for its exponent, with the rounded number
of units. -/
theorem roundWithAccuracy_eq {m : Nat} {e : Int} (s : Sign) (hm : 0 < m) (he : -1074 ≤ e)
    (ht : e ≤ Format.binary64.targetExponent (totalExponent m e)) :
    ∃ M E, ∃ hM : 0 < M, roundWithAccuracy Format.binary64 s m e .exact = .finite s M E hM ∧
      M < 2 ^ 53 ∧ -1074 ≤ E ∧ (2 ^ 52 ≤ M ∨ E = -1074) ∧
      M * 2 ^ (E + 1074).toNat = roundNat (m * 2 ^ (e + 1074).toNat) := by
  obtain ⟨k, hk⟩ := Int.eq_ofNat_of_zero_le (sub_nonneg.mpr ht)
  have hexp : Format.binary64.targetExponent (totalExponent m e) = e + k := by omega
  obtain ⟨hpos, hle, hfull⟩ := nearestDiv_bounds hm he (targetExponent_eq m e) hexp
  have hshift : shiftToTargetExponent Format.binary64 m e .exact
      = (ExtendedMantissa.ofMantissaAndAccuracy m .exact >>> k, e + k) := by
    rw [shiftToTargetExponent, shiftToExponent, hexp, show (e + (k : Int) - e).toNat = k by omega]
  -- in units there are zeros behind the mantissa, which rounding drops as well
  have hround : roundNat (m * 2 ^ (e + 1074).toNat)
      = nearestDiv m k * 2 ^ (e + k + 1074).toNat := by
    have hexcess : excess (m * 2 ^ (e + 1074).toNat) = k + (e + 1074).toNat := by
      rw [targetExponent_eq] at hexp
      rw [excess, log2_mul_two_pow _ hm.ne']
      omega
    rw [roundNat, hexcess, nearestDiv_scale]
    congr 2
    omega
  have htarget : -1074 ≤ e + k := by omega
  rw [hexp] at hfull
  unfold roundWithAccuracy
  rw [hshift]
  dsimp only
  rw [roundedMantissa_shiftRight]
  -- rounding may carry into a 54th bit, and then a second shift gives it back
  rcases hle.lt_or_eq with hlt | heq
  · refine ⟨nearestDiv m k, e + k, hpos, ?_, hlt, htarget, hfull, hround.symm⟩
    rw [shiftToTarget_self hlt htarget]
    exact dif_neg hpos.ne'
  · refine ⟨2 ^ 52, e + k + 1, by decide, ?_, by decide, by omega, Or.inl le_rfl, ?_⟩
    · rw [heq, shiftToTarget_carry htarget]
      rfl
    · rw [hround, heq, show (e + k + 1 + 1074).toNat = (e + k + 1074).toNat + 1 by omega]
      ring

/-- Rounding of an exact value at any exponent. -/
theorem round_eq {m : Nat} {e : Int} (s : Sign) (hm : 0 < m) (he : -1074 ≤ e) :
    ∃ M E, ∃ hM : 0 < M, UnpackedFloat.round Format.binary64 s m e = .finite s M E hM ∧
      M < 2 ^ 53 ∧ -1074 ≤ E ∧ (2 ^ 52 ≤ M ∨ E = -1074) ∧
      M * 2 ^ (E + 1074).toNat = roundNat (m * 2 ^ (e + 1074).toNat) := by
  have htarget := targetExponent_eq m e
  unfold UnpackedFloat.round decreaseExponent
  dsimp only
  generalize hj : (e - Format.binary64.targetExponent (totalExponent m e)).toNat = j
  have hm' : 0 < m <<< j := by
    rw [Nat.shiftLeft_eq]
    exact Nat.mul_pos hm (Nat.two_pow_pos j)
  have hlog : (m <<< j).log2 = m.log2 + j := by rw [Nat.shiftLeft_eq, log2_mul_two_pow _ hm.ne']
  obtain ⟨M, E, hM, heq, hlt, hE, hfull, hunits⟩ :=
    roundWithAccuracy_eq s hm' (e := e - j) (by omega) (by rw [targetExponent_eq, hlog]; omega)
  refine ⟨M, E, hM, heq, hlt, hE, hfull, ?_⟩
  rw [hunits, Nat.shiftLeft_eq, mul_assoc, ← pow_add]
  congr 3
  omega

/-! ## Packing -/

@[simp] theorem fieldOf_packComponents (s : Sign) (e : BitVec 11) (m : BitVec 52) :
    fieldOf (packComponents Format.binary64 s e m) = e :=
  @unpackExponent_packComponents Format.binary64 _ _ _

@[simp] theorem fractionOf_packComponents (s : Sign) (e : BitVec 11) (m : BitVec 52) :
    fractionOf (packComponents Format.binary64 s e m) = m :=
  @unpackMantissa_packComponents Format.binary64 _ _ _

@[simp] theorem signOf_packComponents (s : Sign) (e : BitVec 11) (m : BitVec 52) :
    signOf (packComponents Format.binary64 s e m) = s := by
  rw [signOf, unpackSign_packComponents, Sign.ofBitVec_toBitVec]

theorem unpack_packComponents (s : Sign) (e : BitVec 11) (m : BitVec 52) :
    unpack Format.binary64 (packComponents Format.binary64 s e m) = ofFields s e.toNat m.toNat := by
  rw [unpack_eq_ofFields, fieldOf_packComponents, fractionOf_packComponents, signOf_packComponents]

theorem unpack_model_pack (u : UnpackedFloat) :
    (Float.Model.pack u).unpack
      = unpack Format.binary64 (UnpackedFloat.pack Format.binary64 u) := rfl

theorem finite_congr {s : Sign} {m m' : Nat} {e e' : Int} {h : 0 < m} {h' : 0 < m'} (hm : m = m')
    (he : e = e') : UnpackedFloat.finite s m e h = .finite s m' e' h' := by
  subst hm he
  rfl

/-- Packing keeps a rounded value unless its exponent is too large. -/
theorem unpack_pack_finite {s : Sign} {m : Nat} {e : Int} (h : 0 < m) (hm : m < 2 ^ 53)
    (he : -1074 ≤ e) (hfull : 2 ^ 52 ≤ m ∨ e = -1074) :
    (Float.Model.pack (.finite s m e h)).unpack
      = if e ≤ 971 then .finite s m e h else .infinity s := by
  have hbias : e + (Format.binary64.exponentBias : Int)
      + Format.binary64.mantissaBitsWithoutImplicit = e + 1075 := by
    rw [add_assoc]
    rfl
  rw [unpack_model_pack, UnpackedFloat.pack]
  simp only [hbias]
  by_cases hin : e ≤ 971
  · obtain ⟨k, hk⟩ := Int.eq_ofNat_of_zero_le (show 0 ≤ e + 1075 by omega)
    rw [if_pos hin, if_neg (by omega), hk, Int.toNat_natCast]
    by_cases hnormal : 2 ^ 52 ≤ m
    · have hlog : m.log2 + 1 = Format.binary64.mantissaBits :=
        congrArg (· + 1) ((Nat.log2_eq_iff h.ne').mpr ⟨hnormal, hm⟩)
      have hmod : m % 2 ^ 52 = m - 2 ^ 52 := by omega
      rw [if_pos hlog, unpack_packComponents, BitVec.toNat_ofNat, BitVec.toNat_ofNat,
        Nat.mod_eq_of_lt (by omega : k < 2 ^ 11), hmod, ofFields, if_neg (by omega),
        if_neg (by omega)]
      exact finite_congr (by omega) (by omega)
    -- a subnormal value has the smallest exponent and no hidden bit
    · have hlog : ¬ m.log2 + 1 = Format.binary64.mantissaBits := fun hlog =>
        hnormal ((Nat.log2_eq_iff h.ne').mp (Nat.succ_injective hlog)).1
      have he' : e = -1074 := hfull.resolve_left hnormal
      subst he'
      have hmod : (BitVec.ofNat 52 m).toNat = m :=
        (BitVec.toNat_ofNat m 52).trans (Nat.mod_eq_of_lt (by omega))
      rw [if_neg hlog, unpack_packComponents]
      simp only [hmod]
      rw [ofFields, if_neg (by decide), if_pos (by decide), dif_neg h.ne']
  · rw [if_neg hin, if_pos (by omega), packedInfinity, unpack_packComponents]
    rfl

theorem unpack_pack_zero (s : Sign) : (Float.Model.pack (.zero s)).unpack = .zero s := by
  rw [unpack_model_pack, UnpackedFloat.pack, packedZero, unpack_packComponents]
  rfl

/-! ## Rounding in units -/

/-- An exact number of units, rounded to a double. -/
def roundUnits (z : Int) : Int := z.sign * (min (roundNat z.natAbs) infinityUnits : Nat)

theorem roundUnits_zero : roundUnits 0 = 0 := by rw [roundUnits, Int.sign_zero, zero_mul]

theorem roundUnits_apply (s : Sign) (n : Nat) :
    roundUnits (s.apply n) = s.apply (min (roundNat n) infinityUnits : Nat) := by
  have hzero : roundNat 0 = 0 := by decide
  rcases Nat.eq_zero_or_pos n with rfl | hpos
  · cases s <;> simp [roundUnits, Sign.apply, hzero]
  · have hsign : (n : Int).sign = 1 := Int.sign_natCast_of_ne_zero hpos.ne'
    cases s with
    | negative =>
      rw [roundUnits, Sign.apply, Sign.apply, Int.sign_neg, hsign, Int.natAbs_neg,
        Int.natAbs_natCast, neg_one_mul]
    | positive => rw [roundUnits, Sign.apply, Sign.apply, hsign, Int.natAbs_natCast, one_mul]

theorem roundUnits_mono {x y : Int} (h : x ≤ y) : roundUnits x ≤ roundUnits y := by
  have key : ∀ {m n : Nat}, m ≤ n →
      min (roundNat m) infinityUnits ≤ min (roundNat n) infinityUnits :=
    fun hmn => min_le_min_right _ (roundNat_mono hmn)
  -- rounding goes by size, so the signs are told apart first
  rcases Int.le_total 0 x with hx | hx
  · obtain ⟨m, rfl⟩ := Int.eq_ofNat_of_zero_le hx
    obtain ⟨n, rfl⟩ := Int.eq_ofNat_of_zero_le (hx.trans h)
    have := key (Int.ofNat_le.mp h)
    rw [show roundUnits (m : Int) = _ from roundUnits_apply .positive m,
      show roundUnits (n : Int) = _ from roundUnits_apply .positive n]
    exact Int.ofNat_le.mpr this
  obtain ⟨m, hm⟩ := Int.eq_ofNat_of_zero_le (neg_nonneg.mpr hx)
  obtain rfl : x = -(m : Int) := by omega
  rw [show roundUnits (-(m : Int)) = _ from roundUnits_apply .negative m]
  rcases Int.le_total 0 y with hy | hy
  · obtain ⟨n, rfl⟩ := Int.eq_ofNat_of_zero_le hy
    rw [show roundUnits (n : Int) = _ from roundUnits_apply .positive n]
    simp only [Sign.apply]
    omega
  · obtain ⟨n, hn⟩ := Int.eq_ofNat_of_zero_le (neg_nonneg.mpr hy)
    obtain rfl : y = -(n : Int) := by omega
    have := key (show n ≤ m by omega)
    rw [show roundUnits (-(n : Int)) = _ from roundUnits_apply .negative n]
    simp only [Sign.apply]
    omega

/-- An unpacked value is a number, that of `z` units. -/
def Denotes (u : UnpackedFloat) (z : Int) : Prop := u ≠ .notANumber ∧ unpackedUnits u = z

theorem pack_finite_denotes {s : Sign} {m : Nat} {e : Int} (h : 0 < m) (hm : m < 2 ^ 53)
    (he : -1074 ≤ e) (hfull : 2 ^ 52 ≤ m ∨ e = -1074) :
    Denotes (Float.Model.pack (.finite s m e h)).unpack
      (s.apply (min (m * 2 ^ (e + 1074).toNat) infinityUnits : Nat)) := by
  rw [unpack_pack_finite h hm he hfull]
  split
  · rename_i hin
    refine ⟨by simp, ?_⟩
    rw [min_eq_left (mantissa_lt_infinity ⟨hm, he, hin, hfull⟩).le, unpackedUnits]
  · rename_i hout
    -- too large an exponent: all bits of the mantissa are used, so the value reaches an infinity
    have htop : infinityUnits ≤ m * 2 ^ (e + 1074).toNat := by
      have hm' : 2 ^ 52 ≤ m := hfull.resolve_right (by omega)
      calc infinityUnits ≤ 2 ^ (52 + (e + 1074).toNat) := by
            unfold infinityUnits
            gcongr
            · decide
            · omega
        _ = 2 ^ 52 * 2 ^ (e + 1074).toNat := pow_add 2 52 _
        _ ≤ m * 2 ^ (e + 1074).toNat := Nat.mul_le_mul_right _ hm'
    refine ⟨by simp, ?_⟩
    rw [min_eq_right htop, unpackedUnits]

theorem pack_zero_denotes (s : Sign) : Denotes (Float.Model.pack (.zero s)).unpack 0 := by
  rw [unpack_pack_zero]
  exact ⟨(nomatch ·), rfl⟩

theorem pack_normalize_denotes (z : Int) {e : Int} (zero : Sign) (he : -1074 ≤ e) :
    Denotes (Float.Model.pack (normalize Format.binary64 z e zero)).unpack
      (roundUnits (z * 2 ^ (e + 1074).toNat)) := by
  have key : ∀ (s : Sign) (m : Nat), 0 < m →
      Denotes (Float.Model.pack (UnpackedFloat.round Format.binary64 s m e)).unpack
        (roundUnits (s.apply m * 2 ^ (e + 1074).toNat)) := by
    intro s m hm
    obtain ⟨M, E, hM, heq, hlt, hE, hfull, hunits⟩ := round_eq s hm he
    have hexact : s.apply m * 2 ^ (e + 1074).toNat = s.apply (m * 2 ^ (e + 1074).toNat : Nat) := by
      cases s <;> simp [Sign.apply]
    rw [heq, hexact, roundUnits_apply, ← hunits]
    exact pack_finite_denotes hM hlt hE hfull
  unfold UnpackedFloat.normalize
  rcases lt_trichotomy z 0 with h | rfl | h
  · rw [compare_lt_iff_lt.mpr h]
    have := key .negative (-z).toNat (by omega)
    rwa [show Sign.apply .negative ((-z).toNat : Int) = z by simp only [Sign.apply]; omega] at this
  · rw [compare_eq_iff_eq.mpr rfl, zero_mul, roundUnits_zero]
    exact pack_zero_denotes zero
  · rw [compare_gt_iff_gt.mpr h]
    have := key .positive z.toNat (by omega)
    rwa [show Sign.apply .positive (z.toNat : Int) = z by simp only [Sign.apply]; omega] at this

/-- A value scaled to a smaller exponent is the same number of units. -/
theorem decreaseExponent_units (s : Sign) (m : Nat) {e t : Int} (ht : t ≤ e) (hmin : -1074 ≤ t) :
    s.apply ((decreaseExponent m e t).1 : Nat) * 2 ^ (t + 1074).toNat
      = s.apply (m * 2 ^ (e + 1074).toNat : Nat) := by
  have hexp : (e - t).toNat + (t + 1074).toNat = (e + 1074).toNat := by omega
  have hnat : (decreaseExponent m e t).1 * 2 ^ (t + 1074).toNat = m * 2 ^ (e + 1074).toNat := by
    rw [decreaseExponent, Nat.shiftLeft_eq, mul_assoc, ← pow_add, hexp]
  rw [← hnat]
  cases s <;> simp [Sign.apply]

theorem apply_neg (s : Sign) (n : Int) : (-s).apply n = -s.apply n := by
  cases s
  · exact (neg_neg n).symm
  · rfl

/-- A finite canonical value is packed as it is. -/
theorem pack_canonical_denotes {s : Sign} {m : Nat} {e : Int} (h : 0 < m)
    (hc : Canonical (.finite s m e h)) :
    Denotes (Float.Model.pack (.finite s m e h)).unpack
      (roundUnits (s.apply (m * 2 ^ (e + 1074).toNat : Nat))) := by
  obtain ⟨hm, he, -, hfull⟩ := hc
  rw [roundUnits_apply, roundNat_mul_two_pow _ hm]
  exact pack_finite_denotes h hm he hfull

/-- The difference of two finite values is the exact one, rounded. -/
theorem pack_sub_denotes {a b : UnpackedFloat} (ha : Canonical a) (hb : Canonical b)
    (hfa : a.isFinite) (hfb : b.isFinite) :
    Denotes (Float.Model.pack (UnpackedFloat.sub Format.binary64 a b)).unpack
      (roundUnits (unpackedUnits a - unpackedUnits b)) := by
  rcases a with s₁ | _ | s₁ | ⟨s₁, m₁, e₁, hm₁⟩
  · cases hfa
  · cases hfa
  · rcases b with s₂ | _ | s₂ | ⟨s₂, m₂, e₂, hm₂⟩
    · cases hfb
    · cases hfb
    · have hzero : ∃ s, UnpackedFloat.sub Format.binary64 (.zero s₁) (.zero s₂) = .zero s := by
        rw [UnpackedFloat.sub]
        split <;> exact ⟨_, rfl⟩
      obtain ⟨s, hs⟩ := hzero
      simp only [unpackedUnits, sub_zero, roundUnits_zero, hs]
      exact pack_zero_denotes s
    · have hneg : Canonical (.finite (-s₂) m₂ e₂ hm₂) := hb
      simp only [UnpackedFloat.sub, unpackedUnits, zero_sub, ← apply_neg]
      exact pack_canonical_denotes hm₂ hneg
  · rcases b with s₂ | _ | s₂ | ⟨s₂, m₂, e₂, hm₂⟩
    · cases hfb
    · cases hfb
    · simp only [UnpackedFloat.sub, unpackedUnits, sub_zero]
      exact pack_canonical_denotes hm₁ ha
    -- both values are brought to the smaller exponent, where their difference is exact
    · have hmin : -1074 ≤ min e₁ e₂ := le_min ha.2.1 hb.2.1
      simp only [unpackedUnits]
      rw [← decreaseExponent_units s₁ m₁ (min_le_left e₁ e₂) hmin,
        ← decreaseExponent_units s₂ m₂ (min_le_right e₁ e₂) hmin, ← sub_mul]
      exact pack_normalize_denotes _ _ hmin

/-- Adding a value is subtracting its opposite. -/
theorem add_eq_sub_neg (f : Format) (a b : UnpackedFloat) :
    UnpackedFloat.add f a b = UnpackedFloat.sub f a b.neg := by
  have hneg : ∀ s : Sign, - -s = s := fun s => by cases s <;> rfl
  cases b with
  | notANumber => cases a <;> rfl
  | infinity s => cases s <;> cases a <;> rfl
  | zero s => cases s <;> cases a <;> rfl
  | finite s m e h =>
    cases a <;> simp [UnpackedFloat.add, UnpackedFloat.sub, UnpackedFloat.neg, hneg, apply_neg]

theorem unpackedUnits_neg (u : UnpackedFloat) : unpackedUnits u.neg = -unpackedUnits u := by
  cases u with
  | notANumber | zero s => rfl
  | infinity s | finite s m e h => exact apply_neg s _

theorem Canonical.neg {u : UnpackedFloat} (h : Canonical u) : Canonical u.neg := by cases u <;> exact h

/-- The sum of two finite values is the exact one, rounded. -/
theorem pack_add_denotes {a b : UnpackedFloat} (ha : Canonical a) (hb : Canonical b)
    (hfa : a.isFinite) (hfb : b.isFinite) :
    Denotes (Float.Model.pack (UnpackedFloat.add Format.binary64 a b)).unpack
      (roundUnits (unpackedUnits a + unpackedUnits b)) := by
  have hfinite : b.neg.isFinite := by cases b <;> exact hfb
  rw [add_eq_sub_neg, ← sub_neg_eq_add, ← unpackedUnits_neg]
  exact pack_sub_denotes ha hb.neg hfa hfinite

end Binary64
end StepSignal
