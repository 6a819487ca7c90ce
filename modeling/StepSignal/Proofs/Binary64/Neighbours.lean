import StepSignal.Proofs.Binary64.Order

/-!
# Neighbouring doubles

The bits of a double below the sign bit, read as a number and given the sign, are its *rank*. Finite
doubles are in the order of their ranks, every rank of a certain range is that of some finite
double, and the next double below has the next smaller rank. So there are as many doubles between
two of them as there are integers between their ranks, and doubles that are equal and not zero are
identical.
-/

namespace StepSignal
namespace Binary64

open Float.Model (UnpackedFloat Format)
open Float.Model.UnpackedFloat

variable {x y : Float}

/-! ## Bit fields -/

theorem toNat_fieldOf (b : BitVec 64) : (fieldOf b).toNat = b.toNat % 2 ^ 63 / 2 ^ 52 := by
  show (b.toNat >>> 52) % 2 ^ 11 = _
  rw [Nat.shiftRight_eq_div_pow]
  omega

theorem toNat_fractionOf (b : BitVec 64) : (fractionOf b).toNat = b.toNat % 2 ^ 63 % 2 ^ 52 := by
  show (b.toNat >>> 0) % 2 ^ 52 = _
  rw [Nat.shiftRight_zero]
  omega

theorem signOf_eq (b : BitVec 64) :
    signOf b = if 2 ^ 63 ≤ b.toNat then .negative else .positive := by
  have hb := b.isLt
  have hbit : (@unpackSign Format.binary64 b).toNat = b.toNat / 2 ^ 63 := by
    show (b.toNat >>> 63) % 2 ^ 1 = _
    rw [Nat.shiftRight_eq_div_pow]
    omega
  unfold signOf Sign.ofBitVec
  have hzero : @unpackSign Format.binary64 b = 0#1 ↔ ¬ 2 ^ 63 ≤ b.toNat := by
    rw [← BitVec.toNat_inj, hbit]
    simp only [BitVec.toNat_ofNat, Nat.zero_mod]
    omega
  simp only [hzero, ite_not]

/-! ## Ranks -/

/-- The magnitude of an infinity, which is above those of all finite doubles. -/
def infinityMagnitude : Nat := 2047 * 2 ^ 52

/-- The units of the double with a magnitude and a positive sign. -/
def magnitudeUnits (n : Nat) : Nat :=
  if n / 2 ^ 52 = 0 then n else (2 ^ 52 + n % 2 ^ 52) * 2 ^ (n / 2 ^ 52 - 1)

/-- The bits of a double below the sign bit, with the sign. -/
def rankOfBits (b : UInt64) : Int :=
  if 2 ^ 63 ≤ b.toNat then -(b.toNat % 2 ^ 63 : Nat) else (b.toNat % 2 ^ 63 : Nat)

theorem natAbs_rankOfBits (b : UInt64) : (rankOfBits b).natAbs = b.toNat % 2 ^ 63 := by
  unfold rankOfBits
  split <;> omega

/-- The rank of a double. -/
def rank (x : Float) : Int := rankOfBits x.toBits

/-- The units of the double with a rank. -/
def unitsOfRank (r : Int) : Int := r.sign * magnitudeUnits r.natAbs

theorem magnitudeUnits_strictMono : StrictMono magnitudeUnits := by
  refine strictMono_nat_of_lt_succ fun n => ?_
  unfold magnitudeUnits
  have hr : n % 2 ^ 52 < 2 ^ 52 := Nat.mod_lt _ (by decide)
  have hpow : ∀ k, 0 < k → 2 ^ k = 2 * 2 ^ (k - 1) := fun k hk => by
    rw [← pow_succ']
    congr 1
    omega
  rcases Nat.lt_or_ge (n % 2 ^ 52 + 1) (2 ^ 52) with h | h
  · -- the next double has the same exponent
    have hdiv : (n + 1) / 2 ^ 52 = n / 2 ^ 52 := by omega
    have hmod : (n + 1) % 2 ^ 52 = n % 2 ^ 52 + 1 := by omega
    rw [hdiv, hmod]
    split
    · omega
    · exact Nat.mul_lt_mul_of_pos_right (by omega) (Nat.two_pow_pos _)
  -- the fraction is full, and the next double has the next exponent
  · have hdiv : (n + 1) / 2 ^ 52 = n / 2 ^ 52 + 1 := by omega
    have hmod : (n + 1) % 2 ^ 52 = 0 := by omega
    rw [hdiv, hmod, if_neg (Nat.succ_ne_zero _), Nat.add_sub_cancel, add_zero]
    split <;> rename_i hz
    · rw [hz, pow_zero]
      omega
    · rw [hpow _ (Nat.pos_of_ne_zero hz), ← mul_assoc]
      exact Nat.mul_lt_mul_of_pos_right (by omega) (Nat.two_pow_pos _)

theorem unitsOfRank_natCast (n : Nat) : unitsOfRank n = magnitudeUnits n := by
  rcases Nat.eq_zero_or_pos n with rfl | hn
  · rfl
  · simp [unitsOfRank, Int.sign_natCast_of_ne_zero hn.ne']

theorem unitsOfRank_neg (r : Int) : unitsOfRank (-r) = -unitsOfRank r := by
  simp [unitsOfRank, Int.sign_neg]

theorem unitsOfRank_strictMono : StrictMono unitsOfRank := by
  intro r s h
  obtain ⟨n, rfl | rfl⟩ := r.eq_nat_or_neg <;> obtain ⟨m, rfl | rfl⟩ := s.eq_nat_or_neg
  · rw [unitsOfRank_natCast, unitsOfRank_natCast]
    exact Int.ofNat_lt.mpr (magnitudeUnits_strictMono (Int.ofNat_lt.mp h))
  · omega
  · rw [unitsOfRank_neg, unitsOfRank_natCast, unitsOfRank_natCast]
    rcases Nat.eq_zero_or_pos n with rfl | hn
    · have hm := magnitudeUnits_strictMono (show 0 < m by omega)
      rw [show magnitudeUnits 0 = 0 from rfl] at *
      omega
    · have hm := magnitudeUnits_strictMono hn
      omega
  · rw [unitsOfRank_neg, unitsOfRank_neg, unitsOfRank_natCast, unitsOfRank_natCast]
    have hm := magnitudeUnits_strictMono (show m < n by omega)
    omega

theorem magnitudeUnits_infinity : magnitudeUnits infinityMagnitude = infinityUnits := by
  unfold magnitudeUnits infinityMagnitude infinityUnits
  rw [Nat.mul_div_cancel _ (by decide), Nat.mul_mod_left, if_neg (by decide), add_zero, ← pow_add]

/-- A double given by its fields is a number unless the fields say otherwise. -/
theorem ofFields_ne_notANumber (s : Sign) {field fraction : Nat} (hfield : field ≤ 2047)
    (hfraction : fraction < 2 ^ 52) :
    ofFields s field fraction ≠ .notANumber ↔ field * 2 ^ 52 + fraction ≤ infinityMagnitude := by
  unfold infinityMagnitude ofFields
  split
  · split <;> simp <;> omega
  split
  · split <;> simp <;> omega
  · simp only [ne_eq, reduceCtorEq, not_false_eq_true, true_iff]
    omega

/-- The units of a double given by its fields. -/
theorem unpackedUnits_ofFields (s : Sign) {field fraction : Nat} (hfraction : fraction < 2 ^ 52)
    (h : field * 2 ^ 52 + fraction ≤ infinityMagnitude) :
    unpackedUnits (ofFields s field fraction)
      = s.apply (magnitudeUnits (field * 2 ^ 52 + fraction)) := by
  have hdiv : (field * 2 ^ 52 + fraction) / 2 ^ 52 = field := by omega
  have hmod : (field * 2 ^ 52 + fraction) % 2 ^ 52 = fraction := by omega
  unfold ofFields
  split
  · rename_i htop
    -- the largest field is that of an infinity, unless the fraction makes it NaN
    obtain rfl : fraction = 0 := by
      unfold infinityMagnitude at h
      omega
    rw [if_pos rfl, htop, unpackedUnits, ← magnitudeUnits_infinity]
    rfl
  unfold magnitudeUnits
  rw [hdiv, hmod]
  split <;> rename_i hzero
  · rw [hzero, zero_mul, zero_add]
    split <;> rename_i hnone
    · rw [hnone]
      cases s <;> rfl
    · rw [unpackedUnits, show ((-1074 : Int) + 1074).toNat = 0 from rfl, pow_zero, mul_one]
  · rw [unpackedUnits, show ((field : Int) - 1075 + 1074).toNat = field - 1 by omega]

/-- What a bit pattern stands for is a number unless its magnitude is above that of an infinity, and
its units are those of its rank. -/
theorem unpack_bits (b : UInt64) :
    (unpack Format.binary64 b.toBitVec ≠ .notANumber ↔ b.toNat % 2 ^ 63 ≤ infinityMagnitude) ∧
    (b.toNat % 2 ^ 63 ≤ infinityMagnitude →
      unpackedUnits (unpack Format.binary64 b.toBitVec) = unitsOfRank (rankOfBits b)) := by
  have hfraction : b.toNat % 2 ^ 63 % 2 ^ 52 < 2 ^ 52 := Nat.mod_lt _ (by decide)
  have hjoin : b.toNat % 2 ^ 63 / 2 ^ 52 * 2 ^ 52 + b.toNat % 2 ^ 63 % 2 ^ 52 = b.toNat % 2 ^ 63 :=
    Nat.div_add_mod' _ _
  rw [unpack_eq_ofFields, toNat_fieldOf, toNat_fractionOf]
  refine ⟨?_, fun h => ?_⟩
  · rw [UInt64.toNat_toBitVec, ofFields_ne_notANumber _ (by omega) hfraction, hjoin]
  · rw [UInt64.toNat_toBitVec, unpackedUnits_ofFields _ hfraction (by omega), hjoin, signOf_eq,
      rankOfBits, UInt64.toNat_toBitVec]
    split
    · rw [unitsOfRank_neg, unitsOfRank_natCast]
      rfl
    · rw [unitsOfRank_natCast]
      rfl

/-! ## Doubles by rank -/

/-- A number is packed as it is. -/
theorem unpack_pack_canonical {u : UnpackedFloat} (hc : Canonical u) (hu : u ≠ .notANumber) :
    (Float.Model.pack u).unpack = u := by
  cases u with
  | notANumber => exact absurd rfl hu
  | infinity s =>
    rw [unpack_model_pack, UnpackedFloat.pack, packedInfinity, unpack_packComponents]
    rfl
  | zero s => exact unpack_pack_zero s
  | finite s m e h =>
    obtain ⟨hm, he, htop, hfull⟩ := hc
    rw [unpack_pack_finite h hm he hfull, if_pos htop]

theorem isNaN_iff_rank : x.isNaN = false ↔ (rank x).natAbs ≤ infinityMagnitude := by
  rw [isNaN_eq_false_iff, rank, natAbs_rankOfBits]
  exact (unpack_bits x.toBits).1

theorem units_eq_rank (hx : x.isNaN = false) : units x = unitsOfRank (rank x) := by
  rw [isNaN_iff_rank, rank, natAbs_rankOfBits] at hx
  exact (unpack_bits x.toBits).2 hx

theorem isFinite_iff_rank : x.isFinite = true ↔ (rank x).natAbs < infinityMagnitude := by
  have hunits : ∀ r, (unitsOfRank r).natAbs = magnitudeUnits r.natAbs := fun r => by
    obtain ⟨n, rfl | rfl⟩ := r.eq_nat_or_neg <;> simp [unitsOfRank_neg, unitsOfRank_natCast]
  rw [isFinite_iff_units]
  refine ⟨fun ⟨hnumber, hlt⟩ => ?_, fun hlt => ?_⟩
  · rw [units_eq_rank hnumber, hunits, ← magnitudeUnits_infinity] at hlt
    exact magnitudeUnits_strictMono.lt_iff_lt.mp hlt
  · have hnumber := isNaN_iff_rank.mpr hlt.le
    refine ⟨hnumber, ?_⟩
    rw [units_eq_rank hnumber, hunits, ← magnitudeUnits_infinity]
    exact magnitudeUnits_strictMono hlt

theorem rank_ofBits {b : UInt64} (hb : b.toNat % 2 ^ 63 ≤ infinityMagnitude) :
    rank (Float.ofBits b) = rankOfBits b := by
  have hnumber := (unpack_bits b).1.mpr hb
  have hunpack : (Float.ofBits b).toModel.unpack = unpack Format.binary64 b.toBitVec :=
    unpack_pack_canonical (canonical_unpack b.toBitVec) hnumber
  have hnan : (Float.ofBits b).isNaN = false := by rwa [isNaN_eq_false_iff, hunpack]
  -- a NaN pattern would not survive packing, but this one is a number
  apply unitsOfRank_strictMono.injective
  rw [← units_eq_rank hnan, ← (unpack_bits b).2 hb, units, hunpack]

/-- Doubles are in the order of their ranks. -/
theorem lt_iff_rank (hx : x.isNaN = false) (hy : y.isNaN = false) : x < y ↔ rank x < rank y := by
  rw [lt_iff_units, and_iff_right hx, and_iff_right hy, units_eq_rank hx, units_eq_rank hy,
    unitsOfRank_strictMono.lt_iff_lt]

theorem le_iff_rank (hx : x.isNaN = false) (hy : y.isNaN = false) : x ≤ y ↔ rank x ≤ rank y := by
  rw [le_iff_units, and_iff_right hx, and_iff_right hy, units_eq_rank hx, units_eq_rank hy,
    unitsOfRank_strictMono.le_iff_le]

theorem beq_iff_rank (hx : x.isNaN = false) (hy : y.isNaN = false) :
    (x == y) = true ↔ rank x = rank y := by
  rw [beq_iff_units, and_iff_right hx, and_iff_right hy, units_eq_rank hx, units_eq_rank hy,
    unitsOfRank_strictMono.injective.eq_iff]

/-- Equal doubles are identical, the zeros apart. -/
theorem eq_of_units_eq (hx : x.isNaN = false) (hy : y.isNaN = false) (h : units x = units y)
    (hne : units x ≠ 0) : x = y := by
  have hrank : rank x = rank y := by
    rw [units_eq_rank hx, units_eq_rank hy] at h
    exact unitsOfRank_strictMono.injective h
  have hzero : rank x ≠ 0 := fun hzero => hne (by rw [units_eq_rank hx, hzero]; rfl)
  have hbits : x.toBits.toNat = y.toBits.toNat := by
    have hx := x.toBits.toNat_lt
    have hy := y.toBits.toNat_lt
    unfold rank rankOfBits at hrank hzero
    split at hrank <;> split at hrank <;> omega
  exact Float.toBits_inj.mp (UInt64.toNat_inj.mp hbits)

/-! ## The next double below -/

/-- The next double below has the next smaller rank. -/
theorem rank_below (hx : x.isFinite = true) : rank (below x) = rank x - 1 := by
  have hnumber := isNaN_of_isFinite hx
  have hfinite := isFinite_iff_rank.mp hx
  have hzero : ((x == 0) = true) ↔ rank x = 0 := beq_iff_rank hnumber (by decide)
  have hpos : ((0 : Float) < x) ↔ 0 < rank x := lt_iff_rank (by decide) hnumber
  have hbits := x.toBits.toNat_lt
  rw [rank, natAbs_rankOfBits] at hfinite
  unfold infinityMagnitude at hfinite
  unfold below
  split
  · rename_i h
    rw [hzero.mp h, rank_ofBits (by decide +kernel)]
    decide +kernel
  rename_i hne
  split <;> rename_i h
  -- a positive value: the pattern one below has the sign bit clear as well
  · have hrank := hpos.mp h
    have hlow : x.toBits.toNat < 2 ^ 63 := by
      unfold rank rankOfBits at hrank
      split at hrank <;> omega
    rw [rank, rankOfBits, if_neg (by omega)] at hrank
    have hsub : (x.toBits - 1).toNat = x.toBits.toNat - 1 :=
      UInt64.toNat_sub_of_le _ _ (UInt64.le_iff_toNat_le.mpr (by simpa using (by omega)))
    rw [rank_ofBits (by unfold infinityMagnitude; omega), rank, rankOfBits, rankOfBits, hsub,
      if_neg (by omega), if_neg (by omega)]
    omega
  · have hrank : rank x < 0 := by
      have := mt hzero.mpr hne
      have := mt hpos.mpr h
      omega
    -- a negative value: the pattern one above has a larger magnitude
    have hhigh : 2 ^ 63 ≤ x.toBits.toNat := by
      unfold rank rankOfBits at hrank
      split at hrank <;> omega
    have hadd : (x.toBits + 1).toNat = x.toBits.toNat + 1 := by
      rw [UInt64.toNat_add]
      exact Nat.mod_eq_of_lt (by simpa using (by omega))
    rw [rank_ofBits (by unfold infinityMagnitude; omega), rank, rankOfBits, rankOfBits, hadd,
      if_pos (by omega), if_pos hhigh]
    omega

/-- The next double below is finite as long as its rank is that of a finite double. -/
theorem isFinite_below (hx : x.isFinite = true) (hroom : -(infinityMagnitude : Int) + 1 < rank x) :
    (below x).isFinite = true := by
  have hfinite := isFinite_iff_rank.mp hx
  rw [isFinite_iff_rank, rank_below hx]
  omega

theorem isNaN_below (hx : x.isFinite = true) : (below x).isNaN = false := by
  have hfinite := isFinite_iff_rank.mp hx
  rw [isNaN_iff_rank, rank_below hx]
  omega

theorem below_lt (hx : x.isFinite = true) : below x < x := by
  rw [lt_iff_rank (isNaN_below hx) (isNaN_of_isFinite hx), rank_below hx]
  omega

/-- Finite doubles below another one are no more than there are ranks. -/
theorem add_length_le_rank {xs : List Float} (hfinite : ∀ y ∈ xs, y.isFinite = true)
    (hxs : xs.Pairwise (· < ·)) (hx : x.isFinite = true) (hlt : ∀ y ∈ xs, y < x) {least : Int}
    (hleast : ∀ y ∈ xs, least ≤ rank y) (hle : least ≤ rank x) :
    least + xs.length ≤ rank x := by
  induction xs generalizing least with
  | nil => simpa using hle
  | cons y ys ih =>
    obtain ⟨hy, hys⟩ := List.pairwise_cons.mp hxs
    rw [List.forall_mem_cons] at hfinite hlt hleast
    have hrank : ∀ {a b : Float}, a.isFinite = true → b.isFinite = true → a < b → rank a < rank b :=
      fun ha hb hab => (lt_iff_rank (isNaN_of_isFinite ha) (isNaN_of_isFinite hb)).mp hab
    have hyx := hrank hfinite.1 hx hlt.1
    -- the ranks of the others are above that of the first, so they take at least one more
    have hnext : ∀ z ∈ ys, least + 1 ≤ rank z := fun z hz => by
      have := hrank hfinite.1 (hfinite.2 z hz) (hy z hz)
      omega
    have := ih hfinite.2 hys hlt.2 hnext (by omega)
    rw [List.length_cons]
    omega

/-! ## Values that are not finite -/

/-- There is one value that is not a number. -/
theorem eq_of_isNaN (hx : x.isNaN = true) (hy : y.isNaN = true) : x = y := by
  have hbits : ∀ z : Float, z.isNaN = true → z.toBits.toBitVec =
      Float.Model.UnpackedFloat.packedNaN Format.binary64 := fun z hz =>
    (Float.Model.UnpackedFloat.isNaN_unpack_iff_of_valid z.toModel.valid).mp hz
  exact Float.toBits_inj.mp (UInt64.toBitVec_inj.mp ((hbits x hx).trans (hbits y hy).symm))

/-- There are two infinite values. -/
theorem eq_infinity (hnumber : x.isNaN = false) (hx : x.isFinite = false) :
    x = if isNegative x then -1.0 / 0.0 else 1.0 / 0.0 := by
  have hrank : (rank x).natAbs = infinityMagnitude := by
    have hle := isNaN_iff_rank.mp hnumber
    have hnot : ¬(rank x).natAbs < infinityMagnitude := fun h => by
      rw [isFinite_iff_rank.mpr h] at hx
      exact absurd hx (by decide)
    omega
  rw [rank, natAbs_rankOfBits] at hrank
  have hlt := x.toBits.toNat_lt
  have hbits : ∀ y : Float, y.toBits.toNat = x.toBits.toNat → x = y := fun y hy =>
    Float.toBits_inj.mp (UInt64.toNat_inj.mp hy.symm)
  have hsplit : x.toBits.toNat = infinityMagnitude + if isNegative x then 2 ^ 63 else 0 := by
    unfold isNegative
    simp only [decide_eq_true_eq, ge_iff_le, Nat.one_shiftLeft]
    split <;> omega
  cases hsign : isNegative x with
  | true =>
    rw [hsign, if_pos rfl] at hsplit
    refine hbits _ (Eq.trans ?_ hsplit.symm)
    decide +kernel
  | false =>
    rw [hsign, if_neg (by decide)] at hsplit
    refine hbits _ (Eq.trans ?_ hsplit.symm)
    decide +kernel

/-! ## Distances -/

/-- Of the distances to two later doubles the first is the smaller one, and the very same double if
they are equal. -/
theorem min_sub_sub {a : Float} (hx : x.isFinite = true) (hy : y.isFinite = true)
    (ha : a.isFinite = true) (hax : Scalar.lt a x = true)
    (hxy : Scalar.le x y = true) :
    Scalar.min (x - a) (y - a) = x - a := by
  have hxnum : Scalar.isMissing (x - a) = false := isNaN_sub hx ha
  have hynum : Scalar.isMissing (y - a) = false := isNaN_sub hy ha
  have hlt := (lt_iff_units.mp (of_decide_eq_true hax)).2.2
  have hle := toRat_le_iff.mp ((Scalar.le_iff x y).mp hxy).2.2
  have hmono : units (x - a) ≤ units (y - a) := by
    rw [units_sub hx ha, units_sub hy ha]
    exact roundUnits_mono (by omega)
  rcases Scalar.min_cases hxnum hynum with ⟨heq, -⟩ | ⟨heq, hge⟩
  · exact heq
  · -- both distances are equal, and no distance is zero
    have hpos := units_sub_pos hx ha hlt
    have hge := toRat_le_iff.mp hge
    rw [heq]
    exact eq_of_units_eq hynum hxnum (by omega) (by omega)

end Binary64
end StepSignal
