import Mathlib
import StepSignal.Scalar.Binary64

/-!
# Doubles as whole numbers of units

Every finite double is a whole multiple of `2 ^ (-1074)`, the smallest positive one. `units` counts
these multiples, and an infinity counts as `2 ^ 2098`, the first power of two that no finite double
reaches. Two doubles that are numbers are then in the order of their units:

    a < b  ↔  units a < units b        a == b  ↔  units a = units b

so what is said about the order of doubles is a statement about integers. Only NaN has to be kept
out.
-/

namespace StepSignal
namespace Binary64

open Float.Model (UnpackedFloat Format)
open Float.Model.UnpackedFloat (Sign)

/-! ## Unpacked values -/

/-- What an infinity counts as. -/
def infinityUnits : Nat := 2 ^ 2098

/-- The value of an unpacked double in units of `2 ^ (-1074)`. -/
def unpackedUnits : UnpackedFloat → Int
  | .notANumber => 0
  | .infinity s => s.apply infinityUnits
  | .zero _ => 0
  | .finite s m e _ => s.apply (m * 2 ^ (e + 1074).toNat : Nat)

/-- The unpacked values that are some double: at most 53 bits of mantissa, all of them used unless
the exponent is the smallest one. -/
def Canonical : UnpackedFloat → Prop
  | .finite _ m e _ => m < 2 ^ 53 ∧ -1074 ≤ e ∧ e ≤ 971 ∧ (2 ^ 52 ≤ m ∨ e = -1074)
  | _ => True

/-- The unpacked double with a sign, an exponent field and a fraction field. -/
def ofFields (s : Sign) (field fraction : Nat) : UnpackedFloat :=
  if field = 2047 then if fraction = 0 then .infinity s else .notANumber
  else if field = 0 then
    if h : fraction = 0 then .zero s else .finite s fraction (-1074) (Nat.pos_of_ne_zero h)
  else .finite s (2 ^ 52 + fraction) (field - 1075) (by omega)

/-- A mantissa with the hidden bit put back. -/
theorem toNat_append_hidden (m : BitVec 52) : (1#1 ++ m).toNat = 2 ^ 52 + m.toNat := by
  rw [BitVec.toNat_append, ← Nat.shiftLeft_add_eq_or_of_lt m.isLt]
  rfl

/-- The sign of a bit pattern. -/
def signOf (b : BitVec 64) : Sign := .ofBitVec (@UnpackedFloat.unpackSign Format.binary64 b)

/-- The exponent field of a bit pattern. -/
def fieldOf (b : BitVec 64) : BitVec 11 := @UnpackedFloat.unpackExponent Format.binary64 b

/-- The fraction field of a bit pattern. -/
def fractionOf (b : BitVec 64) : BitVec 52 :=
  @UnpackedFloat.unpackMantissa Format.binary64 b

theorem unpack_eq_ofFields (b : BitVec 64) :
    UnpackedFloat.unpack Format.binary64 b
      = ofFields (signOf b) (fieldOf b).toNat (fractionOf b).toNat := by
  -- the fields are compared as bit vectors, and what they are compared with has a number
  have hbias : ((Format.binary64.exponentBias : Int) + Format.binary64.mantissaBitsWithoutImplicit)
      = 1075 := rfl
  have htop : fieldOf b = -1#11 ↔ (fieldOf b).toNat = 2047 := BitVec.toNat_inj.symm
  have hzero : fieldOf b = 0#11 ↔ (fieldOf b).toNat = 0 := BitVec.toNat_inj.symm
  have hnone : fractionOf b = 0#52 ↔ (fractionOf b).toNat = 0 := BitVec.toNat_inj.symm
  unfold fieldOf at htop hzero
  unfold fractionOf at hnone
  unfold UnpackedFloat.unpack ofFields signOf fieldOf fractionOf
  simp only [htop, hzero, hnone, hbias]
  split
  · rfl
  split
  · rename_i h
    split
    · rfl
    · simp only [h]
      rfl
  · simp only [toNat_append_hidden]

theorem canonical_unpack (b : BitVec 64) : Canonical (UnpackedFloat.unpack Format.binary64 b) := by
  rw [unpack_eq_ofFields]
  have hfield : (fieldOf b).toNat < 2 ^ 11 := BitVec.isLt _
  have hfraction : (fractionOf b).toNat < 2 ^ 52 := BitVec.isLt _
  unfold ofFields
  split
  · split <;> trivial
  split
  · split
    · trivial
    · exact ⟨by omega, by omega, by omega, Or.inr rfl⟩
  · exact ⟨by omega, by omega, by omega, Or.inl (by omega)⟩

/-! ## Order -/

/-- Of two canonical mantissas the one with the larger exponent has the larger value. -/
theorem mul_two_pow_lt {m₁ m₂ k₁ k₂ : Nat} (h₁ : m₁ < 2 ^ 53) (h₂ : 2 ^ 52 ≤ m₂ ∨ k₂ = 0)
    (hk : k₁ < k₂) : m₁ * 2 ^ k₁ < m₂ * 2 ^ k₂ := by
  have hm₂ : 2 ^ 52 ≤ m₂ := h₂.resolve_right (by omega)
  -- a bit more in the exponent makes up for all bits of the mantissa
  calc m₁ * 2 ^ k₁ < 2 ^ 53 * 2 ^ k₁ := Nat.mul_lt_mul_of_pos_right h₁ (Nat.two_pow_pos k₁)
    _ = 2 ^ 52 * 2 ^ (k₁ + 1) := by ring
    _ ≤ m₂ * 2 ^ k₂ := Nat.mul_le_mul hm₂ (Nat.pow_le_pow_right (by decide) hk)

/-- The comparison of canonical values by exponent and then by mantissa is the one by size. -/
theorem compare_exponent_mantissa {m₁ m₂ : Nat} {e₁ e₂ : Int}
    (h₁ : m₁ < 2 ^ 53 ∧ -1074 ≤ e₁ ∧ e₁ ≤ 971 ∧ (2 ^ 52 ≤ m₁ ∨ e₁ = -1074))
    (h₂ : m₂ < 2 ^ 53 ∧ -1074 ≤ e₂ ∧ e₂ ≤ 971 ∧ (2 ^ 52 ≤ m₂ ∨ e₂ = -1074)) :
    (compare e₁ e₂).then (compare m₁ m₂)
      = compare (m₁ * 2 ^ (e₁ + 1074).toNat) (m₂ * 2 ^ (e₂ + 1074).toNat) := by
  obtain ⟨hm₁, he₁, -, hc₁⟩ := h₁
  obtain ⟨hm₂, he₂, -, hc₂⟩ := h₂
  rcases lt_trichotomy e₁ e₂ with hlt | rfl | hgt
  · have h : m₁ * 2 ^ (e₁ + 1074).toNat < m₂ * 2 ^ (e₂ + 1074).toNat :=
      mul_two_pow_lt hm₁ (hc₂.imp_right fun h => by omega) (by omega)
    rw [compare_lt_iff_lt.mpr hlt, compare_lt_iff_lt.mpr h]
    rfl
  · rw [compare_eq_iff_eq.mpr rfl]
    have hpos := Nat.two_pow_pos (e₁ + 1074).toNat
    rcases lt_trichotomy m₁ m₂ with h | rfl | h
    · rw [compare_lt_iff_lt.mpr h, compare_lt_iff_lt.mpr (Nat.mul_lt_mul_of_pos_right h hpos)]
      rfl
    · rw [compare_eq_iff_eq.mpr rfl, compare_eq_iff_eq.mpr rfl]
      rfl
    · rw [compare_gt_iff_gt.mpr h, compare_gt_iff_gt.mpr (Nat.mul_lt_mul_of_pos_right h hpos)]
      rfl
  · have h : m₂ * 2 ^ (e₂ + 1074).toNat < m₁ * 2 ^ (e₁ + 1074).toNat :=
      mul_two_pow_lt hm₂ (hc₁.imp_right fun h => by omega) (by omega)
    rw [compare_gt_iff_gt.mpr hgt, compare_gt_iff_gt.mpr h]
    rfl

/-- No finite value reaches what an infinity counts as. -/
theorem mantissa_lt_infinity {m : Nat} {e : Int}
    (h : m < 2 ^ 53 ∧ -1074 ≤ e ∧ e ≤ 971 ∧ (2 ^ 52 ≤ m ∨ e = -1074)) :
    m * 2 ^ (e + 1074).toNat < infinityUnits := by
  calc m * 2 ^ (e + 1074).toNat < 2 ^ 53 * 2 ^ (e + 1074).toNat :=
        Nat.mul_lt_mul_of_pos_right h.1 (Nat.two_pow_pos _)
    _ = 2 ^ (53 + (e + 1074).toNat) := (Nat.pow_add 2 53 _).symm
    _ ≤ infinityUnits := by
        unfold infinityUnits
        gcongr
        · decide
        · omega

theorem infinityUnits_pos : 0 < infinityUnits := by
  unfold infinityUnits
  positivity

theorem lt_eq_compare {x y : Int} (h : x < y) : some Ordering.lt = some (compare x y) :=
  congrArg some (compare_lt_iff_lt.mpr h).symm

theorem gt_eq_compare {x y : Int} (h : y < x) : some Ordering.gt = some (compare x y) :=
  congrArg some (compare_gt_iff_gt.mpr h).symm

theorem eq_eq_compare {x y : Int} (h : x = y) : some Ordering.eq = some (compare x y) :=
  congrArg some (compare_eq_iff_eq.mpr h).symm

theorem compare_natCast (m n : Nat) : compare (m : Int) (n : Int) = compare m n := by
  rcases lt_trichotomy m n with h | rfl | h
  · rw [compare_lt_iff_lt.mpr h, compare_lt_iff_lt.mpr (Int.ofNat_lt.mpr h)]
  · rw [compare_eq_iff_eq.mpr rfl, compare_eq_iff_eq.mpr rfl]
  · rw [compare_gt_iff_gt.mpr h, compare_gt_iff_gt.mpr (Int.ofNat_lt.mpr h)]

theorem compare_neg_natCast (m n : Nat) :
    compare (-(m : Int)) (-(n : Int)) = (compare m n).swap := by
  rcases lt_trichotomy m n with h | rfl | h
  · rw [compare_lt_iff_lt.mpr h, compare_gt_iff_gt.mpr (by omega)]
    rfl
  · rw [compare_eq_iff_eq.mpr rfl, compare_eq_iff_eq.mpr rfl]
    rfl
  · rw [compare_gt_iff_gt.mpr h, compare_lt_iff_lt.mpr (by omega)]
    rfl

/-- Comparing unpacked doubles compares their units. -/
theorem compare_eq_units {a b : UnpackedFloat} (ha : Canonical a) (hb : Canonical b)
    (hna : a ≠ .notANumber) (hnb : b ≠ .notANumber) :
    a.compare b = some (compare (unpackedUnits a) (unpackedUnits b)) := by
  -- apart from two finite values of one sign, the signs and the bound of an infinity decide
  have htop := infinityUnits_pos
  have hpos : ∀ {m : Nat} {e : Int}, 0 < m → 0 < m * 2 ^ (e + 1074).toNat :=
    fun hm => Nat.mul_pos hm (Nat.two_pow_pos _)
  cases a with
  | notANumber => exact absurd rfl hna
  | infinity s₁ =>
    cases b with
    | notANumber => exact absurd rfl hnb
    | infinity s₂ =>
      cases s₁ <;> cases s₂ <;>
        first
        | exact eq_eq_compare rfl
        | exact lt_eq_compare (by simp only [unpackedUnits, Sign.apply]; omega)
        | exact gt_eq_compare (by simp only [unpackedUnits, Sign.apply]; omega)
    | zero s₂ =>
      cases s₁
      · exact lt_eq_compare (by simp only [unpackedUnits, Sign.apply]; omega)
      · exact gt_eq_compare (by simp only [unpackedUnits, Sign.apply]; omega)
    | finite s₂ m₂ e₂ hm₂ =>
      have h₂ := mantissa_lt_infinity hb
      cases s₁ <;> cases s₂ <;>
        first
        | exact lt_eq_compare (by simp only [unpackedUnits, Sign.apply]; omega)
        | exact gt_eq_compare (by simp only [unpackedUnits, Sign.apply]; omega)
  | zero s₁ =>
    cases b with
    | notANumber => exact absurd rfl hnb
    | infinity s₂ =>
      cases s₂
      · exact gt_eq_compare (by simp only [unpackedUnits, Sign.apply]; omega)
      · exact lt_eq_compare (by simp only [unpackedUnits, Sign.apply]; omega)
    | zero s₂ => exact eq_eq_compare rfl
    | finite s₂ m₂ e₂ hm₂ =>
      have h₂ := hpos (e := e₂) hm₂
      cases s₂
      · exact gt_eq_compare (by simp only [unpackedUnits, Sign.apply]; omega)
      · exact lt_eq_compare (by simp only [unpackedUnits, Sign.apply]; omega)
  | finite s₁ m₁ e₁ hm₁ =>
    have h₁ := hpos (e := e₁) hm₁
    have h₁' := mantissa_lt_infinity ha
    cases b with
    | notANumber => exact absurd rfl hnb
    | infinity s₂ =>
      cases s₁ <;> cases s₂ <;>
        first
        | exact lt_eq_compare (by simp only [unpackedUnits, Sign.apply]; omega)
        | exact gt_eq_compare (by simp only [unpackedUnits, Sign.apply]; omega)
    | zero s₂ =>
      cases s₁
      · exact lt_eq_compare (by simp only [unpackedUnits, Sign.apply]; omega)
      · exact gt_eq_compare (by simp only [unpackedUnits, Sign.apply]; omega)
    | finite s₂ m₂ e₂ hm₂ =>
      have h₂ := hpos (e := e₂) hm₂
      -- of one sign, the exponents are compared first and then the mantissas
      have hcmp := compare_exponent_mantissa ha hb
      cases s₁ <;> cases s₂
      · simp only [UnpackedFloat.compare, unpackedUnits, Sign.apply, compare_neg_natCast, hcmp]
      · exact lt_eq_compare (by simp only [unpackedUnits, Sign.apply]; omega)
      · exact gt_eq_compare (by simp only [unpackedUnits, Sign.apply]; omega)
      · simp only [UnpackedFloat.compare, unpackedUnits, Sign.apply, compare_natCast, hcmp]

end Binary64
end StepSignal
