import StepSignal.Proofs.Binary64.Accuracy

/-!
# Whole numbers as doubles

Whole numbers of 53 bits are doubles. The whole number that a double above zero is rounded up to is
above zero as well, and at most one above the double. Zero is rounded up to zero.
-/

namespace StepSignal
namespace Binary64

open Float.Model (UnpackedFloat Format)
open Float.Model.UnpackedFloat
open Scalar (toRat)

variable {x : Float} {n : Nat}

/-! ## Whole numbers of 53 bits -/

/-- A double is an integer when its units are those of the integer. -/
theorem toRat_eq_intCast_iff {z : Int} : toRat x = z ↔ units x = z * oneUnits := by
  have hvalue : toRat x = units x / oneUnits := by
    rw [oneUnits, Nat.cast_pow, Nat.cast_ofNat]
    rfl
  rw [hvalue, div_eq_iff (Nat.cast_ne_zero.mpr oneUnits_pos.ne')]
  norm_cast

theorem toRat_whole (h : units x = (n * oneUnits : Nat)) : toRat x = n :=
  toRat_eq_intCast_iff.mpr (h.trans (Nat.cast_mul n oneUnits))

/-- The double of a whole number of 53 bits is that number. -/
theorem ofNat_whole (hn : n < 2 ^ 53) :
    (Float.ofNat n).isFinite = true ∧ toRat (Float.ofNat n) = n := by
  obtain ⟨hfinite, hunits⟩ := whole_of_denotes hn (ofNat_denotes n)
  exact ⟨hfinite, toRat_whole hunits⟩

/-! ## Rounding up -/

theorem roundToInt_le (m : Nat) (e : Int) : (roundToInt .positive m e : Rat) ≤ m * 2 ^ e := by
  unfold roundToInt decreaseExponent shiftToExponent
  dsimp only
  rw [mantissa_shiftRight, mantissa_ofMantissaAndAccuracy, Sign.apply, Nat.shiftLeft_eq]
  rcases Int.le_total 0 e with he | he
  · obtain ⟨k, rfl⟩ := Int.eq_ofNat_of_zero_le he
    simp
  · obtain ⟨k, hk⟩ := Int.eq_ofNat_of_zero_le (neg_nonneg.mpr he)
    obtain rfl : e = -k := by omega
    have hzero : (-(k : Int) - 0).toNat = 0 := by omega
    have hshift : (0 - (-(k : Int) - ((0 : Nat) : Int))).toNat = k := by omega
    rw [hzero, hshift, pow_zero, mul_one, zpow_neg, zpow_natCast, ← div_eq_mul_inv]
    exact_mod_cast Nat.cast_div_le

theorem toNat_ofNatClamp_le (n : Nat) : (UInt64.ofNatClamp n).toNat ≤ n := by
  unfold UInt64.ofNatClamp
  split
  · exact le_rfl
  · rename_i hlarge
    exact (Nat.sub_le _ _).trans (not_lt.mp hlarge)

/-- The whole number that a double above zero is cut to is not above it. -/
theorem toUInt64_le (hx : x.isFinite = true) (hpos : 0 < toRat x) :
    (x.toUInt64.toNat : Rat) ≤ toRat x := by
  obtain ⟨m, e, hm, hux, hc, hvalue⟩ := exists_mantissa hx hpos
  have hword : x.toUInt64 = UInt64.ofNatClamp (roundToInt .positive m e).toNat := by
    show UInt64.ofNatClamp (toInt 0 _ x.toModel.unpack).toNat = _
    rw [hux]
    rfl
  have hle := roundToInt_le m e
  have hnonneg : (0 : Rat) ≤ m * 2 ^ e := by positivity
  rw [hvalue, hword]
  refine (Nat.cast_le.mpr (toNat_ofNatClamp_le _)).trans ?_
  rw [← Int.cast_natCast, Int.toNat_eq_max]
  push_cast
  exact max_le hle hnonneg

theorem ceil_le (hx : x.isFinite = true) (hpos : 0 < toRat x) : (ceil x : Rat) ≤ toRat x + 1 := by
  have hle := toUInt64_le hx hpos
  unfold ceil
  dsimp only
  split
  · push_cast
    linarith
  · linarith

theorem ceil_pos (h : 0 < x) : 0 < ceil x := by
  unfold ceil
  dsimp only
  split
  · exact Nat.succ_pos _
  · rename_i hnot
    refine Nat.pos_of_ne_zero fun hzero => hnot ?_
    have hword : x.toUInt64 = 0 := UInt64.toNat_inj.mp hzero
    obtain ⟨-, hnumber, hlt⟩ := lt_iff_units.mp h
    rw [hword]
    exact lt_iff_units.mpr ⟨rfl, hnumber, hlt⟩

theorem ceil?_of_unpack_zero {s : Sign} (h : x.toModel.unpack = .zero s) :
    Binary64.ceil? x = some 0 := by
  have hunits : units x = 0 := by rw [units, h]; rfl
  have hword : x.toUInt64 = 0 := by
    show x.toModel.unpack.toUInt64 = 0
    rw [h]
    rfl
  have hlimit : ¬ placeLimit ≤ x := fun hle => by
    have hle := (le_iff_units.mp hle).2.2
    rw [hunits] at hle
    exact absurd hle (by decide +kernel)
  have hlt : ¬ (0 : UInt64).toFloat < x := fun hlt => by
    have hlt := (lt_iff_units.mp hlt).2.2
    rw [hunits] at hlt
    exact lt_irrefl _ hlt
  rw [Binary64.ceil?, if_neg hlimit, ceil, hword, if_neg hlt]
  rfl

/-- No part of a number above zero is zero places. -/
theorem ceil?_zero_div {y : Float} (hx : x.isFinite = true) (hzero : units x = 0)
    (hy : y.isNaN = false) (hpos : 0 < units y) : Binary64.ceil? (x / y) = some 0 := by
  have hx : x.toModel.unpack.isFinite = true := hx
  have hzero : unpackedUnits x.toModel.unpack = 0 := hzero
  have hy := isNaN_eq_false_iff.mp hy
  have hpos : 0 < unpackedUnits y.toModel.unpack := hpos
  have hquotient : ∃ s, UnpackedFloat.div Format.binary64 x.toModel.unpack y.toModel.unpack
      = .zero s := by
    generalize x.toModel.unpack = u at *
    generalize y.toModel.unpack = v at *
    cases u with
    | notANumber | infinity s => cases hx
    | finite s m e hm =>
      have hunits := natAbs_apply s (m * 2 ^ (e + 1074).toNat)
      rw [show s.apply _ = 0 from hzero] at hunits
      exact absurd hunits (Nat.mul_pos hm (Nat.two_pow_pos _)).ne
    | zero s =>
      cases v with
      | notANumber => exact absurd rfl hy
      | zero s => exact absurd hpos (lt_irrefl 0)
      | infinity s | finite s m e hm => exact ⟨_, rfl⟩
  obtain ⟨s, hs⟩ := hquotient
  have hunpack : (x / y).toModel.unpack = .zero s := by
    show (Float.Model.pack (UnpackedFloat.div Format.binary64 x.toModel.unpack
      y.toModel.unpack)).unpack = _
    rw [hs]
    exact unpack_pack_zero s
  exact ceil?_of_unpack_zero hunpack

end Binary64
end StepSignal
