import StepSignal.Proofs.Binary64.Neighbours
import StepSignal.Proofs.Binary64.Whole

/-!
# Integers as doubles

On its way to a double an integer is rounded to 53 bits, once and with ties to even. The integers that
are doubles are the ones that this leaves as they are, among them all integers up to `2 ^ 53`. Above
that, different integers can become the same double.
-/

namespace StepSignal
namespace Binary64

open Scalar (toRat)

variable {x : Float} {z : Int}

/-! ## Conversion -/

/-- The opposite of a number is exact. -/
theorem neg_denotes (hx : x.isNaN = false) : Denotes x.neg.toModel.unpack (-units x) := by
  have hc : Canonical x.toModel.unpack := canonical_unpack _
  have hx := isNaN_eq_false_iff.mp hx
  have hneg : x.toModel.unpack.neg ≠ .notANumber := by
    cases hu : x.toModel.unpack with
    | notANumber => exact absurd hu hx
    | infinity s | zero s | finite s m e h => exact nofun
  have hunpack : x.neg.toModel.unpack = x.toModel.unpack.neg := unpack_pack_canonical hc.neg hneg
  rw [hunpack]
  exact ⟨hneg, unpackedUnits_neg _⟩

/-- An integer is rounded once on its way to a double. -/
theorem ofInt_denotes (z : Int) :
    Denotes (Float.ofInt z).toModel.unpack (roundUnits (z * oneUnits)) := by
  have hneg : ∀ n : Nat, roundUnits (-(n : Int)) = -roundUnits n := fun n =>
    (roundUnits_apply .negative n).trans (congrArg Neg.neg (roundUnits_apply .positive n)).symm
  cases z with
  | ofNat n => exact_mod_cast ofNat_denotes n
  | negSucc n =>
    have hnat := ofNat_denotes (n + 1)
    have hdenotes := neg_denotes (isNaN_eq_false_iff.mpr hnat.1)
    rw [show units (Float.ofNat (n + 1)) = _ from hnat.2, ← hneg] at hdenotes
    rw [Int.negSucc_eq, neg_mul]
    exact_mod_cast hdenotes

/-! ## Rounding to 53 bits -/

theorem natAbs_toInt_le (n : Int64) : n.toInt.natAbs ≤ 2 ^ 64 := by
  have hlo := Int64.le_toInt n
  have hhi := Int64.toInt_lt n
  omega

/-- An integer rounded to 53 bits, ties to even. -/
def roundInt (z : Int) : Int := z.sign * roundNat z.natAbs

theorem roundNat_of_lt {n : Nat} (hn : n < 2 ^ 53) : roundNat n = n := by
  simpa using roundNat_mul_two_pow 0 hn

/-- Rounding keeps 53 bits wherever they are. -/
theorem roundNat_scale (n k : Nat) : roundNat (n * 2 ^ k) = roundNat n * 2 ^ k := by
  rcases Nat.lt_or_ge n (2 ^ 53) with hn | hn
  · rw [roundNat_mul_two_pow k hn, roundNat_of_lt hn]
  · have hlog : 53 ≤ n.log2 := (Nat.le_log2 (by omega)).mpr hn
    have hexcess : excess (n * 2 ^ k) = excess n + k := by
      unfold excess
      rw [log2_mul_two_pow k (by omega)]
      omega
    rw [roundNat, roundNat, hexcess, nearestDiv_scale, pow_add, mul_assoc]

/-- In units, 53 bits of an integer are 53 bits of a double. -/
theorem roundUnits_mul_oneUnits (hz : z.natAbs ≤ 2 ^ 64) :
    roundUnits (z * oneUnits) = roundInt z * oneUnits ∧
      (roundInt z * oneUnits).natAbs < infinityUnits := by
  have hround : roundNat (z.natAbs * oneUnits) = roundNat z.natAbs * oneUnits := roundNat_scale _ 1074
  have hlt : roundNat z.natAbs * oneUnits < infinityUnits :=
    calc roundNat z.natAbs * oneUnits
        ≤ roundNat (1 * 2 ^ 64) * oneUnits :=
          Nat.mul_le_mul_right _ (roundNat_mono (by rwa [Nat.one_mul]))
      _ = 2 ^ 64 * oneUnits := by rw [roundNat_mul_two_pow 64 (by decide), Nat.one_mul]
      _ < 2 ^ 65 * oneUnits := Nat.mul_lt_mul_of_pos_right (by decide) oneUnits_pos
      _ ≤ infinityUnits := by
          unfold oneUnits infinityUnits
          exact two_pow_mul_le (by decide)
  have hone : (oneUnits : Int).sign = 1 := Int.sign_natCast_of_ne_zero oneUnits_pos.ne'
  constructor
  · rw [roundUnits, Int.sign_mul, hone, mul_one, Int.natAbs_mul, Int.natAbs_natCast, hround,
      min_eq_left hlt.le, roundInt, Nat.cast_mul, mul_assoc]
  · have hsign : z.sign.natAbs ≤ 1 := by
      rcases Int.sign_trichotomy z with h | h | h <;> rw [h] <;> decide
    refine lt_of_le_of_lt ?_ hlt
    rw [roundInt, Int.natAbs_mul, Int.natAbs_mul, Int.natAbs_natCast, Int.natAbs_natCast]
    exact Nat.mul_le_mul_right _ ((Nat.mul_le_mul_right _ hsign).trans_eq (Nat.one_mul _))

/-- The double of an integer is the integer rounded to 53 bits. -/
theorem ofInt_rounds (hz : z.natAbs ≤ 2 ^ 64) :
    (Float.ofInt z).isFinite = true ∧ toRat (Float.ofInt z) = roundInt z := by
  obtain ⟨hnumber, hunits⟩ := ofInt_denotes z
  obtain ⟨hround, hlt⟩ := roundUnits_mul_oneUnits hz
  have hunits : units (Float.ofInt z) = roundInt z * oneUnits := hunits.trans hround
  refine ⟨?_, toRat_eq_intCast_iff.mpr hunits⟩
  rw [isFinite_iff_units, hunits]
  exact ⟨isNaN_eq_false_iff.mpr hnumber, hlt⟩

/-- Only finite doubles are integers of 64 bits. -/
theorem isFinite_of_toRat_eq (hz : z.natAbs ≤ 2 ^ 64) (hx : x.isNaN = false)
    (h : toRat x = roundInt z) : x.isFinite = true := by
  rw [isFinite_iff_units, toRat_eq_intCast_iff.mp h]
  exact ⟨hx, (roundUnits_mul_oneUnits hz).2⟩

/-- An integer that some double is. -/
def IsDouble (z : Int) : Prop := ∃ x : Float, x.isFinite = true ∧ toRat x = z

/-- The integers that are doubles are not rounded. -/
theorem isDouble_iff (hz : z.natAbs ≤ 2 ^ 64) : IsDouble z ↔ roundInt z = z := by
  constructor
  · rintro ⟨x, hx, hvalue⟩
    have hunits := toRat_eq_intCast_iff.mp hvalue
    have hround := roundUnits_units hx
    rw [hunits, (roundUnits_mul_oneUnits hz).1] at hround
    exact Int.eq_of_mul_eq_mul_right (Int.natCast_ne_zero.mpr oneUnits_pos.ne') hround
  · intro hround
    obtain ⟨hfinite, hvalue⟩ := ofInt_rounds hz
    exact ⟨Float.ofInt z, hfinite, hvalue.trans (congrArg Int.cast hround)⟩

/-- The integers up to `2 ^ 53` are doubles. -/
theorem isDouble_of_le (hz : z.natAbs ≤ 2 ^ 53) : IsDouble z := by
  refine (isDouble_iff (hz.trans (by decide))).mpr ?_
  have hself : roundNat z.natAbs = z.natAbs := by
    rcases hz.lt_or_eq with hlt | heq
    · exact roundNat_of_lt hlt
    · rw [heq]
      simpa using roundNat_mul_two_pow (m := 1) 53 (by decide)
  rw [roundInt, hself, Int.sign_mul_natAbs]

end Binary64
end StepSignal
