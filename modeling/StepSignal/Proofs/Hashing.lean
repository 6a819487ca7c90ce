import StepSignal.Hashing
import StepSignal.Proofs.Binary64.Neighbours
import StepSignal.Proofs.CellOrder
import StepSignal.Proofs.Utf8

/-!
# Order, equality and bytes of cells agree

A hash map of keys needs that keys are equal exactly when they feed the same bytes to a hasher, and
sorted groups need an order with that equality. Numbers are where the three could part: the order goes
by bit patterns, the bytes are a bit pattern, and the equality of zeros and of NaN is neither. After
folding the zeros, all three see the rank of a double and nothing else.

The bytes of a cell tell where the cell ends, so that the bytes of a key are those of one list of cells.
-/

namespace StepSignal

/-! ## Bit patterns -/

namespace Binary64

open BitVec (allOnes cons)

/-- Shifting the sign bit down to the last place fills the word with it. -/
theorem sshiftRight_sign (w : BitVec 64) :
    w.sshiftRight 63 = if w.msb then allOnes 64 else 0#64 := by
  have hlow : ∀ v : BitVec 64, v.msb = false → v >>> 63 = 0#64 := fun v hv => by
    have hlt : v.toNat < 2 ^ 63 := by
      rw [BitVec.msb_eq_decide, decide_eq_false_iff_not] at hv
      omega
    rw [← BitVec.toNat_inj, BitVec.toNat_ushiftRight, Nat.shiftRight_eq_div_pow,
      Nat.div_eq_of_lt hlt]
    rfl
  cases hw : w.msb with
  | false => rw [BitVec.sshiftRight_eq_of_msb_false hw, hlow w hw, if_neg Bool.false_ne_true]
  | true =>
    have hnot : (~~~w).msb = false := by simp [hw]
    rw [BitVec.sshiftRight_eq_of_msb_true hw, hlow _ hnot, if_pos rfl, BitVec.not_zero]

/-- An exclusive or with all bits but the highest inverts them. -/
theorem toNat_xor_low {w : BitVec 64} (h : w.msb = true) :
    (w ^^^ allOnes 64 >>> 1).toNat = 2 ^ 64 - 1 - w.toNat % 2 ^ 63 := by
  have hw : w = cons true (w.setWidth 63) := by
    rw [← h]
    exact (BitVec.cons_msb_setWidth w).symm
  have hlow : allOnes 64 >>> 1 = cons false (allOnes 63) := by decide
  have hmod : (w.setWidth 63).toNat = w.toNat % 2 ^ 63 := BitVec.toNat_setWidth ..
  rw [hlow, hw, BitVec.cons_xor_cons, BitVec.xor_allOnes, BitVec.toNat_cons', BitVec.toNat_not, ← hw,
    hmod, Bool.xor_false, Bool.toNat_true, Nat.shiftLeft_eq]
  omega

/-- The order word of a double is its rank, and one less under a sign bit. -/
theorem toInt_orderWord (x : Float) :
    (orderWord x).toInt = if 2 ^ 63 ≤ x.toBits.toNat then rank x - 1 else rank x := by
  have hlt := x.toBits.toNat_lt
  have hmsb : x.toBits.toBitVec.msb = decide (2 ^ 63 ≤ x.toBits.toNat) := BitVec.msb_eq_decide _
  have hword : (orderWord x).toInt =
      (x.toBits.toBitVec ^^^ x.toBits.toBitVec.sshiftRight 63 >>> 1).toInt := rfl
  rw [hword, sshiftRight_sign, hmsb, BitVec.toInt_eq_toNat_cond, rank, rankOfBits]
  by_cases hsign : 2 ^ 63 ≤ x.toBits.toNat
  · rw [if_pos hsign, if_pos hsign, decide_eq_true hsign, if_pos rfl,
      toNat_xor_low (hmsb.trans (decide_eq_true hsign)), UInt64.toNat_toBitVec]
    omega
  · rw [if_neg hsign, if_neg hsign, decide_eq_false hsign, if_neg Bool.false_ne_true,
      BitVec.zero_ushiftRight, BitVec.xor_zero, UInt64.toNat_toBitVec]
    omega

theorem compare_orderWord (x y : Float) :
    compare (orderWord x) (orderWord y) = compare (orderWord x).toInt (orderWord y).toInt := by
  show compareOfLessAndEq _ _ = compareOfLessAndEq _ _
  simp only [compareOfLessAndEq, Int64.lt_iff_toInt_lt, Int64.toInt_inj]

/-! ## Folded doubles -/

/-- Both zeros have the rank zero, so folding them changes no rank. -/
theorem rank_folded (x : Float) : rank (folded x) = rank x := by
  unfold folded
  split <;> rename_i hzero
  · have hnumber : x.isNaN = false := (beq_iff_units.mp hzero).1
    exact ((beq_iff_rank hnumber (by decide)).mp hzero).symm
  · rfl

/-- After folding, the sign bit is set below zero only. -/
theorem sign_folded (x : Float) : 2 ^ 63 ≤ (folded x).toBits.toNat ↔ rank x < 0 := by
  rw [← rank_folded x]
  unfold folded
  split <;> rename_i hzero
  · decide +kernel
  · have hrank : rank x ≠ 0 := fun hrank => hzero <| by
      have hnumber : x.isNaN = false := isNaN_iff_rank.mpr (by rw [hrank]; decide)
      exact (beq_iff_rank hnumber (by decide)).mpr hrank
    unfold rank rankOfBits at *
    split at hrank <;> omega

/-- Folded doubles have the same bits when they have the same rank. -/
theorem toBits_folded_eq_iff (x y : Float) :
    (folded x).toBits = (folded y).toBits ↔ rank x = rank y := by
  refine ⟨fun h => by rw [← rank_folded x, ← rank_folded y, rank, rank, h], fun hrank => ?_⟩
  have hx := sign_folded x
  have hy := sign_folded y
  have hltx := (folded x).toBits.toNat_lt
  have hlty := (folded y).toBits.toNat_lt
  have hbits : rankOfBits (folded x).toBits = rankOfBits (folded y).toBits :=
    (rank_folded x).trans (hrank.trans (rank_folded y).symm)
  unfold rankOfBits at hbits
  apply UInt64.toNat_inj.mp
  split at hbits <;> split at hbits <;> omega

/-- The bit patterns of folded doubles are in the order of the ranks. -/
theorem bitOrder_folded (x y : Float) : bitOrder (folded x) (folded y) = compare (rank x) (rank y) := by
  have hmono : StrictMono fun r : Int => if r < 0 then r - 1 else r := fun r s h => by
    dsimp only
    split <;> split <;> omega
  have hword : ∀ z, (orderWord (folded z)).toInt = if rank z < 0 then rank z - 1 else rank z :=
    fun z => by
      rw [toInt_orderWord, rank_folded]
      exact if_congr (sign_folded z) rfl rfl
  rw [bitOrder, compare_orderWord, hword, hword, ← cmp_eq_compare, ← cmp_eq_compare]
  exact hmono.cmp_map_eq (rank x) (rank y)

-- as bit patterns the zeros are told apart
example : bitOrder (-0.0) 0 = .lt ∧ bitOrder (folded (-0.0)) (folded 0) = .eq := by decide

/-! ## The order of doubles -/

/-- NaN has a rank above those of all numbers. -/
theorem infinityMagnitude_lt_rank {x : Float} (h : x.isNaN = true) :
    (infinityMagnitude : Int) < rank x := by
  have hnan : Float.isNaN (0 / 0) = true := by decide
  rw [eq_of_isNaN h hnan]
  decide +kernel

theorem order_isLE_iff_rank (x y : Float) : (Scalar.order x y).isLE = true ↔ rank x ≤ rank y := by
  have hbound : ∀ {z : Float}, z.isNaN = false → (rank z).natAbs ≤ infinityMagnitude :=
    fun hz => isNaN_iff_rank.mp hz
  rw [Scalar.order_isLE_iff, toRat_le_iff]
  show y.isNaN = true ∨ x.isNaN = false ∧ units x ≤ units y ↔ _
  cases hx : x.isNaN <;> cases hy : y.isNaN
  · rw [units_eq_rank hx, units_eq_rank hy, unitsOfRank_strictMono.le_iff_le]
    simp
  · have := hbound hx
    have := infinityMagnitude_lt_rank hy
    exact iff_of_true (.inl rfl) (by omega)
  · have := hbound hy
    have := infinityMagnitude_lt_rank hx
    exact iff_of_false (by simp) (by omega)
  · rw [eq_of_isNaN hx hy]
    exact iff_of_true (.inl rfl) le_rfl

/-- Doubles are in the order of their ranks, NaN with them. -/
theorem order_eq_compare_rank (x y : Float) : Scalar.order x y = compare (rank x) (rank y) := by
  have hle : ∀ a b : Float, (Scalar.order a b).isLE = (compare (rank a) (rank b)).isLE := fun a b => by
    rw [Bool.eq_iff_iff, order_isLE_iff_rank, Int.isLE_compare]
  have hxy := hle x y
  have hyx := hle y x
  rw [Scalar.order_swap y x, Std.OrientedOrd.eq_swap (a := rank y)] at hyx
  revert hxy hyx
  cases Scalar.order x y <;> cases compare (rank x) (rank y) <;> decide

end Binary64

/-! ## Bytes -/

section Bytes

variable {width m n : Nat} {rest rest' : List UInt8}

@[simp] theorem length_littleEndian (width n : Nat) : (littleEndian width n).length = width := by
  induction width generalizing n with
  | zero => rfl
  | succ width ih => rw [littleEndian, List.length_cons, ih]

theorem littleEndian_inj (hm : m < 256 ^ width) (hn : n < 256 ^ width)
    (h : littleEndian width m = littleEndian width n) : m = n := by
  induction width generalizing m n with
  | zero => omega
  | succ width ih =>
    rw [Nat.pow_succ] at hm hn
    obtain ⟨hfirst, hothers⟩ := List.cons.inj h
    have hlow : m % 256 = n % 256 := by
      rw [← Utf8.toNat_toUInt8, ← Utf8.toNat_toUInt8, hfirst]
    have hhigh : m / 256 = n / 256 := ih (by omega) (by omega) hothers
    omega

/-- A word is told apart from what follows it. -/
theorem littleEndian_append_inj (hm : m < 256 ^ width) (hn : n < 256 ^ width)
    (h : littleEndian width m ++ rest = littleEndian width n ++ rest') : m = n ∧ rest = rest' := by
  obtain ⟨hword, hrest⟩ := List.append_inj h (by simp)
  exact ⟨littleEndian_inj hm hn hword, hrest⟩

end Bytes

/-! ## Cells -/

namespace Cell

variable {rest rest' : List UInt8}

open Binary64 (folded bitOrder)

/-- Numbers are in the order of their folded bit patterns. -/
theorem order_num (x y : Float) :
    Cell.order (.num x) (.num y) = bitOrder (folded x) (folded y) :=
  (Binary64.order_eq_compare_rank x y).trans (Binary64.bitOrder_folded x y).symm

/-- Numbers are the same when their folded bit patterns are. -/
theorem same_num_iff (x y : Float) :
    Cell.same (.num x) (.num y) = true ↔ (folded x).toBits = (folded y).toBits := by
  show (Scalar.order x y).isEq = true ↔ _
  rw [Ordering.isEq_iff_eq_eq, Binary64.order_eq_compare_rank, compare_eq_iff_eq,
    Binary64.toBits_folded_eq_iff]

theorem rank_lt (c : Cell Float) : c.rank < 256 := by
  cases c <;> simp [rank]

/-- The bytes of a cell are told apart from what follows them, and are those of one cell only. -/
theorem hashed_append_inj {a b : Cell Float} (h : a.hashed ++ rest = b.hashed ++ rest') :
    Cell.same a b = true ∧ rest = rest' := by
  obtain ⟨hfirst, hvalue⟩ := List.cons.inj h
  have hrank : a.rank = b.rank := by
    have hnat := congrArg UInt8.toNat hfirst
    rwa [Utf8.toNat_toUInt8, Utf8.toNat_toUInt8, Nat.mod_eq_of_lt a.rank_lt,
      Nat.mod_eq_of_lt b.rank_lt] at hnat
  cases a <;> cases b <;> simp only [Cell.rank, Nat.reduceEqDiff] at hrank
  case null.null => exact ⟨rfl, hvalue⟩
  case bool.bool p q =>
    obtain ⟨hbit, hrest⟩ := List.cons.inj hvalue
    obtain rfl : p = q := by
      revert hbit
      cases p <;> cases q <;> decide
    exact ⟨(Cell.same_iff _ _).mpr rfl, hrest⟩
  case int.int m n =>
    obtain ⟨hword, hrest⟩ := littleEndian_append_inj m.toUInt64.toNat_lt n.toUInt64.toNat_lt hvalue
    obtain rfl : m = n :=
      Int64.toBitVec_inj.mp (congrArg UInt64.toBitVec (UInt64.toNat_inj.mp hword))
    exact ⟨(Cell.same_iff _ _).mpr rfl, hrest⟩
  case num.num x y =>
    obtain ⟨hword, hrest⟩ :=
      littleEndian_append_inj (folded x).toBits.toNat_lt (folded y).toBits.toNat_lt hvalue
    exact ⟨(same_num_iff x y).mpr (UInt64.toNat_inj.mp hword), hrest⟩
  case text.text s t =>
    have hbytes : Utf8.encode s.toList ++ 0xFF :: rest = Utf8.encode t.toList ++ 0xFF :: rest' := by
      simpa [hashedValue] using hvalue
    obtain ⟨htext, hrest⟩ := Utf8.encode_append_inj (by decide) hbytes
    obtain rfl : s = t := String.toList_injective htext
    exact ⟨(Cell.same_iff _ _).mpr rfl, hrest⟩

/-- Cells that are the same feed the same bytes. -/
theorem hashed_eq_of_same {a b : Cell Float} (h : Cell.same a b = true) : a.hashed = b.hashed := by
  have hexact := (Cell.same_iff a b).mp h
  cases a <;> cases b <;> simp only [Cell.exactly, reduceCtorEq] at hexact
  case null.null => rfl
  case bool.bool => cases hexact; rfl
  case int.int => cases hexact; rfl
  case num.num x y =>
    rw [hashed, hashed, hashedValue, hashedValue, (same_num_iff x y).mp h]
    rfl
  case text.text => cases hexact; rfl

theorem same_iff_hashed (a b : Cell Float) : Cell.same a b = true ↔ a.hashed = b.hashed :=
  ⟨hashed_eq_of_same, fun h => (hashed_append_inj (congrArg (· ++ []) h)).1⟩

/-! ## Keys -/

/-- Keys are the same when they have the same cells at the same places. -/
theorem sameAll_eq_isEqv {α : Type} [Scalar α] (as bs : List (Cell α)) :
    sameAll as bs = as.isEqv bs Cell.same := by
  induction as generalizing bs with
  | nil => cases bs <;> rfl
  | cons a as ih =>
    cases bs with
    | nil => rfl
    | cons b bs =>
      rw [List.isEqv, ← ih, sameAll, sameAll, Cell.same, orderAll]
      cases Cell.order a b <;> rfl

/-- Cells that follow one another are told apart. -/
theorem sameAll_of_flatMap_hashed {as bs : List (Cell Float)}
    (h : as.flatMap hashed = bs.flatMap hashed) : sameAll as bs = true := by
  rw [sameAll_eq_isEqv]
  induction as generalizing bs with
  | nil =>
    cases bs with
    | nil => rfl
    | cons b bs => cases h
  | cons a as ih =>
    cases bs with
    | nil => cases h
    | cons b bs =>
      obtain ⟨hsame, hrest⟩ := hashed_append_inj (show a.hashed ++ _ = b.hashed ++ _ from h)
      rw [List.isEqv, hsame, ih hrest]
      rfl

theorem flatMap_hashed_of_sameAll {as bs : List (Cell Float)} (h : sameAll as bs = true) :
    as.length = bs.length ∧ as.flatMap hashed = bs.flatMap hashed := by
  rw [sameAll_eq_isEqv] at h
  induction as generalizing bs with
  | nil =>
    cases bs with
    | nil => exact ⟨rfl, rfl⟩
    | cons b bs => cases h
  | cons a as ih =>
    cases bs with
    | nil => cases h
    | cons b bs =>
      rw [List.isEqv, Bool.and_eq_true] at h
      obtain ⟨hlength, hbytes⟩ := ih h.2
      exact ⟨congrArg (· + 1) hlength, congrArg₂ (· ++ ·) (hashed_eq_of_same h.1) hbytes⟩

theorem sameAll_iff_hashedAll (as bs : List (Cell Float)) :
    sameAll as bs = true ↔ hashedAll as = hashedAll bs := by
  refine ⟨fun h => ?_, fun h => ?_⟩
  · obtain ⟨hlength, hbytes⟩ := flatMap_hashed_of_sameAll h
    rw [hashedAll, hashedAll, hlength, hbytes]
  · exact sameAll_of_flatMap_hashed (List.append_inj h (by simp)).2

end Cell

/-! ## Agreement -/

/-- A total order, an equality and the bytes fed to a hasher that agree: equal values are those that
the order does not tell apart, and those with the same bytes. -/
structure Coherent {β : Type} (order : β → β → Ordering) (same : β → β → Bool)
    (hashed : β → List UInt8) : Prop where
  refl : ∀ a, order a a = .eq
  antisymm : ∀ a b, (order a b).isLE = true → (order b a).isLE = true → same a b = true
  trans : ∀ a b c, (order a b).isLE = true → (order b c).isLE = true → (order a c).isLE = true
  total : ∀ a b, (order a b).isLE = true ∨ (order b a).isLE = true
  swap : ∀ a b, order b a = (order a b).swap
  same_iff_order : ∀ a b, same a b = true ↔ order a b = .eq
  same_iff_hashed : ∀ a b, same a b = true ↔ hashed a = hashed b

/-- What has to be shown of an order and its equality. -/
theorem Coherent.of_transCmp {β : Type} {order : β → β → Ordering} {same : β → β → Bool}
    {hashed : β → List UInt8} [Std.TransCmp order] (hsame : ∀ a b, same a b = (order a b).isEq)
    (hhashed : ∀ a b, same a b = true ↔ hashed a = hashed b) : Coherent order same hashed where
  refl _ := Std.ReflCmp.compare_self
  antisymm a b hab hba := by
    rw [hsame, Std.OrientedCmp.isLE_antisymm hab hba]
    rfl
  trans _ _ _ := Std.TransCmp.isLE_trans
  total a b := by
    have hswap : order b a = (order a b).swap := Std.OrientedCmp.eq_swap
    rw [hswap]
    cases order a b <;> decide
  swap _ _ := Std.OrientedCmp.eq_swap
  same_iff_order a b := by rw [hsame, Ordering.isEq_iff_eq_eq]
  same_iff_hashed := hhashed

namespace Cell

open Binary64 (folded bitOrder)

/-- **Cells are ordered, compared and hashed alike, and so are keys.** The order of cells is total up
to cells that are the same, and cells are the same exactly when they feed the same bytes to a hasher.
Of numbers, all three see the folded bit pattern, so that the zeros are one cell; an integer is never
the same as a number. The lexicographic order of keys is total as well, with the equality of hash maps:
the same cells at the same places. -/
theorem order_coherent :
    Coherent (Cell.order : Cell Float → Cell Float → Ordering) Cell.same hashed ∧
    (∀ x y : Float, Cell.order (.num x) (.num y) = bitOrder (folded x) (folded y) ∧
      (Cell.same (.num x) (.num y) = true ↔ (folded x).toBits = (folded y).toBits)) ∧
    Cell.same (.num (-0.0 : Float)) (.num 0.0) = true ∧
    (∀ (n : Int64) (x : Float), Cell.same (.int n) (.num x) = false ∧
      Cell.same (.num x) (.int n) = false) ∧
    Coherent (orderAll : List (Cell Float) → List (Cell Float) → Ordering) sameAll hashedAll ∧
    ∀ as bs : List (Cell Float), orderAll as bs = List.compareLex Cell.order as bs ∧
      sameAll as bs = as.isEqv bs Cell.same :=
  ⟨.of_transCmp (fun _ _ => rfl) same_iff_hashed,
    fun x y => ⟨order_num x y, same_num_iff x y⟩,
    by decide,
    fun _ _ => ⟨rfl, rfl⟩,
    .of_transCmp (fun _ _ => rfl) sameAll_iff_hashedAll,
    fun as bs => ⟨orderAll_eq_compareLex as bs, sameAll_eq_isEqv as bs⟩⟩

end Cell

end StepSignal
