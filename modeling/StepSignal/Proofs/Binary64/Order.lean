import StepSignal.Proofs.Binary64.Rounding
import StepSignal.Proofs.Lawful

/-!
# The order of doubles

Doubles that are numbers are compared as their units are, and subtraction rounds without changing
the order: `Float` is a lawful scalar.
-/

namespace StepSignal
namespace Binary64

open Float.Model (UnpackedFloat)
open Float.Model.UnpackedFloat (Sign)

variable {x y : Float}

/-- The value of a double in units of `2 ^ (-1074)`. -/
def units (x : Float) : Int := unpackedUnits x.toModel.unpack

theorem isNaN_eq_false_iff : x.isNaN = false ↔ x.toModel.unpack ≠ .notANumber := by
  show x.toModel.unpack.isNaN = false ↔ _
  cases x.toModel.unpack <;> simp [UnpackedFloat.isNaN]

/-! ## Comparing -/

theorem compare_eq_units_of_number (hx : x.isNaN = false) (hy : y.isNaN = false) :
    x.toModel.unpack.compare y.toModel.unpack = some (compare (units x) (units y)) :=
  compare_eq_units (canonical_unpack _) (canonical_unpack _) (isNaN_eq_false_iff.mp hx)
    (isNaN_eq_false_iff.mp hy)

/-- NaN compares with nothing. -/
theorem compare_eq_none (h : ¬ (x.isNaN = false ∧ y.isNaN = false)) :
    x.toModel.unpack.compare y.toModel.unpack = none := by
  rw [isNaN_eq_false_iff, isNaN_eq_false_iff] at h
  generalize x.toModel.unpack = a at *
  generalize y.toModel.unpack = b at *
  by_cases ha : a = .notANumber
  · subst ha
    cases b <;> rfl
  · obtain rfl : b = .notANumber := not_not.mp fun hb => h ⟨ha, hb⟩
    rcases a with ⟨_ | _⟩ | _ | _ | ⟨_ | _⟩ <;> rfl

/-- What is asked of the comparison of two doubles, and is false when there is none, holds when both
are numbers and it holds of the comparison of their units. -/
theorem asks_compare_iff (asks : Option Ordering → Bool) (hnone : asks none = false) :
    asks (x.toModel.unpack.compare y.toModel.unpack) = true ↔
      x.isNaN = false ∧ y.isNaN = false ∧ asks (some (compare (units x) (units y))) = true := by
  by_cases h : x.isNaN = false ∧ y.isNaN = false
  · rw [compare_eq_units_of_number h.1 h.2, and_iff_right h.1, and_iff_right h.2]
  · rw [compare_eq_none h, hnone]
    exact iff_of_false Bool.false_ne_true fun hc => h ⟨hc.1, hc.2.1⟩

theorem lt_iff_units :
    (x < y) ↔ x.isNaN = false ∧ y.isNaN = false ∧ units x < units y := by
  show decide (x.toModel.unpack.lt y.toModel.unpack = true) = true ↔ _
  rw [decide_eq_true_eq, UnpackedFloat.lt, asks_compare_iff (· == some .lt) rfl, beq_iff_eq,
    Option.some_inj, compare_lt_iff_lt]

theorem beq_iff_units :
    (x == y) = true ↔ x.isNaN = false ∧ y.isNaN = false ∧ units x = units y := by
  show x.toModel.unpack.beq y.toModel.unpack = true ↔ _
  rw [UnpackedFloat.beq, asks_compare_iff (· == some .eq) rfl, beq_iff_eq, Option.some_inj,
    compare_eq_iff_eq]

theorem le_iff_units :
    (x ≤ y) ↔ x.isNaN = false ∧ y.isNaN = false ∧ units x ≤ units y := by
  show decide (x.toModel.unpack.le y.toModel.unpack = true) = true ↔ _
  rw [decide_eq_true_eq, UnpackedFloat.le, asks_compare_iff (·.any (·.isLE)) rfl, Option.any_some,
    ← Ordering.ne_gt_iff_isLE, ← ne_eq, compare_le_iff_le]

/-! ## Finite doubles -/

theorem natAbs_apply (s : Sign) (n : Nat) : (s.apply n).natAbs = n := by
  cases s <;> simp [Sign.apply]

/-- A number is finite when it is smaller than the infinities. -/
theorem isFinite_iff_units :
    x.isFinite = true ↔ x.isNaN = false ∧ (units x).natAbs < infinityUnits := by
  have hc : Canonical x.toModel.unpack := canonical_unpack _
  rw [isNaN_eq_false_iff, units]
  show x.toModel.unpack.isFinite = true ↔ _
  generalize x.toModel.unpack = u at *
  cases u with
  | notANumber => simp [UnpackedFloat.isFinite]
  | infinity s =>
    rw [unpackedUnits, natAbs_apply]
    exact iff_of_false Bool.false_ne_true fun h => lt_irrefl _ h.2
  | zero s => simp [UnpackedFloat.isFinite, unpackedUnits, infinityUnits_pos]
  | finite s m e h =>
    rw [unpackedUnits, natAbs_apply]
    exact iff_of_true rfl ⟨by simp, mantissa_lt_infinity hc⟩

theorem isNaN_of_isFinite (hx : x.isFinite = true) : x.isNaN = false := by
  rw [isNaN_eq_false_iff]
  rintro h
  have hf : x.toModel.unpack.isFinite = true := hx
  rw [h] at hf
  cases hf

/-- A number between two finite ones is finite. -/
theorem isFinite_of_units_le {z : Float} (hx : x.isFinite = true) (hz : z.isFinite = true)
    (hy : y.isNaN = false) (hxy : units x ≤ units y) (hyz : units y ≤ units z) :
    y.isFinite = true := by
  have hx := (isFinite_iff_units.mp hx).2
  have hz := (isFinite_iff_units.mp hz).2
  rw [isFinite_iff_units]
  exact ⟨hy, by omega⟩

/-- Minus infinity is below all finite doubles. -/
theorem neg_infinity_lt (hx : x.isFinite = true) : -1 / 0 < x := by
  have hunits : units (-1 / 0) = -infinityUnits := rfl
  obtain ⟨hnumber, hlt⟩ := isFinite_iff_units.mp hx
  rw [lt_iff_units, hunits]
  exact ⟨rfl, hnumber, by omega⟩

/-- Infinity is above all finite doubles. -/
theorem lt_infinity (hx : x.isFinite = true) : x < 1 / 0 := by
  have hunits : units (1 / 0) = infinityUnits := rfl
  obtain ⟨hnumber, hlt⟩ := isFinite_iff_units.mp hx
  rw [lt_iff_units, hunits]
  exact ⟨hnumber, rfl, by omega⟩

/-! ## Subtraction -/

theorem sub_denotes (hx : x.isFinite = true) (hy : y.isFinite = true) :
    Denotes (x - y).toModel.unpack (roundUnits (units x - units y)) :=
  pack_sub_denotes (canonical_unpack _) (canonical_unpack _) hx hy

theorem isNaN_sub (hx : x.isFinite = true) (hy : y.isFinite = true) : (x - y).isNaN = false :=
  isNaN_eq_false_iff.mpr (sub_denotes hx hy).1

/-- Subtraction rounds the exact difference. -/
theorem units_sub (hx : x.isFinite = true) (hy : y.isFinite = true) :
    units (x - y) = roundUnits (units x - units y) := (sub_denotes hx hy).2

/-- The difference of two different doubles is not lost in rounding. -/
theorem units_sub_pos (hx : x.isFinite = true) (hy : y.isFinite = true) (h : units y < units x) :
    0 < units (x - y) := by
  have hone : roundUnits 1 = 1 := by decide +kernel
  have hmono : roundUnits 1 ≤ roundUnits (units x - units y) := roundUnits_mono (by omega)
  rw [units_sub hx hy]
  omega

/-! ## Addition -/

theorem add_denotes (hx : x.isFinite = true) (hy : y.isFinite = true) :
    Denotes (x + y).toModel.unpack (roundUnits (units x + units y)) :=
  pack_add_denotes (canonical_unpack _) (canonical_unpack _) hx hy

theorem isNaN_add (hx : x.isFinite = true) (hy : y.isFinite = true) : (x + y).isNaN = false :=
  isNaN_eq_false_iff.mpr (add_denotes hx hy).1

/-- A finite double is not rounded. -/
theorem roundUnits_units (hx : x.isFinite = true) : roundUnits (units x) = units x := by
  have hc : Canonical x.toModel.unpack := canonical_unpack _
  have hf : x.toModel.unpack.isFinite := hx
  rw [units]
  generalize x.toModel.unpack = u at *
  cases u with
  | notANumber => cases hf
  | infinity s => cases hf
  | zero s => exact roundUnits_zero
  | finite s m e h =>
    rw [unpackedUnits, roundUnits_apply, roundNat_mul_two_pow _ hc.1,
      min_eq_left (mantissa_lt_infinity hc).le]

/-- Adding what is not negative makes a double no smaller. -/
theorem units_le_add (hx : x.isFinite = true) (hy : y.isFinite = true) (h : 0 ≤ units y) :
    units x ≤ units (x + y) := by
  have hmono : roundUnits (units x) ≤ roundUnits (units x + units y) := roundUnits_mono (by omega)
  rwa [roundUnits_units hx, ← (add_denotes hx hy).2] at hmono

end Binary64

open Binary64 in
instance : LawfulScalar Float where
  toRat x := units x / 2 ^ 1074
  lt_iff a b := by
    rw [div_lt_div_iff_of_pos_right (by positivity), Int.cast_lt]
    exact decide_eq_true_iff.trans lt_iff_units
  eq_iff a b := by
    rw [div_left_inj' (by positivity), Int.cast_inj]
    exact beq_iff_units
  isMissing_of_isFinite _ := isNaN_of_isFinite
  isFinite_of_le_of_le a b c ha hc hb hab hbc := by
    have hpos : (0 : Rat) < 2 ^ 1074 := by positivity
    rw [div_le_div_iff_of_pos_right hpos, Int.cast_le] at hab hbc
    exact isFinite_of_units_le ha hc hb hab hbc
  isMissing_sub _ _ := isNaN_sub
  sub_le_sub a b c d ha hb hc hd hac hdb := by
    have hpos : (0 : Rat) < 2 ^ 1074 := by positivity
    rw [div_le_div_iff_of_pos_right hpos, Int.cast_le] at hac hdb ⊢
    rw [units_sub ha hb, units_sub hc hd]
    exact roundUnits_mono (by omega)

theorem Binary64.toRat_le_iff {x y : Float} :
    Scalar.toRat x ≤ Scalar.toRat y ↔ units x ≤ units y := by
  have hpos : (0 : Rat) < 2 ^ 1074 := by positivity
  show (units x / 2 ^ 1074 : Rat) ≤ units y / 2 ^ 1074 ↔ _
  rw [div_le_div_iff_of_pos_right hpos, Int.cast_le]

theorem Binary64.toRat_lt_iff {x y : Float} :
    Scalar.toRat x < Scalar.toRat y ↔ units x < units y :=
  lt_iff_lt_of_le_iff_le toRat_le_iff

theorem Binary64.le_iff_toRat {x y : Float} (hx : Scalar.isMissing x = false)
    (hy : Scalar.isMissing y = false) : x ≤ y ↔ Scalar.toRat x ≤ Scalar.toRat y := by
  have hx' : x.isNaN = false := hx
  have hy' : y.isNaN = false := hy
  rw [toRat_le_iff, le_iff_units, and_iff_right hx', and_iff_right hy']

/-- Doubles are compared as scalars are. -/
theorem Binary64.le_iff_scalar {x y : Float} : x ≤ y ↔ Scalar.le x y = true := by
  rw [Scalar.le_iff, toRat_le_iff, le_iff_units]
  rfl

end StepSignal
