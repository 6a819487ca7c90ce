import Mathlib.Data.List.Pairwise
import StepSignal.Proofs.Lawful
import StepSignal.Proofs.Outcome

/-!
# Ordered indices and lookup in them

The times of an ordered index are numbers in ascending order. Halving finds where a time belongs
among them, and whatever the seek, a row that stands for a time has only earlier times before it and
only later times after it.
-/

namespace StepSignal

open Scalar

/-! ## Checking -/

section Checking

variable {α : Type} [Scalar α]

theorem checkIncreasing_eq_ok {index : List α} {row : Nat} :
    checkIncreasing row index = .ok () ↔ Increasing index := by
  induction index generalizing row with
  | nil => exact iff_of_true rfl trivial
  | cons a rest ih =>
    rcases rest with - | ⟨b, rest⟩
    · exact iff_of_true rfl trivial
    · rw [checkIncreasing, Increasing, ← @ih (row + 1)]
      split <;> simp [*]

/-- An index passes the check when it is ordered. -/
theorem checkIndex_eq_ok {index : List α} : checkIndex index = .ok () ↔ Ordered index := by
  unfold checkIndex Ordered
  split <;> rename_i h
  · have hmem := List.mem_of_find?_eq_some h
    have hbad := List.find?_some h
    refine iff_of_false (nomatch ·) fun hc => ?_
    simp [hc.1 _ hmem] at hbad
  · rw [List.find?_eq_none] at h
    rw [checkIncreasing_eq_ok, and_iff_right]
    simpa using h

theorem kind_of_checkIncreasing {index : List α} {row : Nat} {fault : Fault α}
    (h : checkIncreasing row index = .error fault) : fault.kind = .invalidArgument := by
  fun_induction checkIncreasing row index with
  | case1 row a b rest hab ih => exact ih h
  | case2 row a b rest hab =>
    cases h
    rfl
  | case3 => cases h

/-- What is wrong with an index is an invalid argument. -/
theorem kind_of_checkIndex {index : List α} {fault : Fault α}
    (h : checkIndex index = .error fault) : fault.kind = .invalidArgument := by
  unfold checkIndex at h
  split at h
  · cases h
    rfl
  · exact kind_of_checkIncreasing h

end Checking

/-! ## Order -/

variable {α : Type} [Scalar α] [LawfulScalar α]

/-- A time comes before another one. -/
def Before (a b : α) : Prop := toRat a < toRat b

theorem Before.trans {a b c : α} (hab : Before a b) (hbc : Before b c) : Before a c :=
  lt_trans hab hbc

instance : Trans (@Before α _ _) Before Before := ⟨Before.trans⟩

/-- An ordered index is a list of finite times, each before all that follow. -/
theorem ordered_iff {index : List α} :
    Ordered index ↔ (∀ t ∈ index, isFinite t = true) ∧ index.Pairwise Before := by
  unfold Ordered
  refine and_congr_right fun hfinite => ?_
  have hnumber : ∀ t ∈ index, isMissing t = false := fun t ht =>
    LawfulScalar.isMissing_of_isFinite t (hfinite t ht)
  clear hfinite
  induction index with
  | nil => exact iff_of_true trivial .nil
  | cons a rest ih =>
    rcases rest with - | ⟨b, rest⟩
    · exact iff_of_true trivial (List.pairwise_singleton _ _)
    · have hab : lt a b = true ↔ Before a b := by
        simp [LawfulScalar.lt_iff, hnumber, Before]
      have hrest := ih fun t ht => hnumber t (List.mem_cons_of_mem a ht)
      -- the check compares neighbours only, which is enough because the order is transitive
      rw [List.pairwise_cons_cons_iff_of_trans]
      exact and_congr hab hrest

namespace Ordered

variable {index : List α}

theorem pairwise (h : Ordered index) : index.Pairwise Before := (ordered_iff.mp h).2

theorem isMissing_of_mem (h : Ordered index) {t : α} (ht : t ∈ index) :
    Scalar.isMissing t = false :=
  LawfulScalar.isMissing_of_isFinite t (h.1 t ht)

/-- A selection of times, in their order, is ordered. -/
theorem sublist (h : Ordered index) {kept : List α} (hs : kept.Sublist index) : Ordered kept :=
  ordered_iff.mpr ⟨fun t ht => h.1 t (hs.mem ht), h.pairwise.sublist hs⟩

/-- Two ordered lists of times follow each other when the first one ends before the second begins.
-/
theorem append {other : List α} (h : Ordered index) (hother : Ordered other)
    (hlt : ∀ s ∈ index, ∀ t ∈ other.head?, toRat s < toRat t) : Ordered (index ++ other) := by
  rw [ordered_iff, List.pairwise_append]
  refine ⟨fun t ht => ?_, h.pairwise, hother.pairwise, fun s hs t ht => ?_⟩
  · rcases List.mem_append.mp ht with ht | ht
    · exact h.1 t ht
    · exact hother.1 t ht
  · rcases other with - | ⟨first, rest⟩
    · cases ht
    have hfirst := hlt s hs first rfl
    rcases List.mem_cons.mp ht with rfl | ht
    · exact hfirst
    · exact hfirst.trans ((List.pairwise_cons.mp hother.pairwise).1 t ht)

theorem before {i j : Nat} {s t : α} (h : Ordered index) (hi : index[i]? = some s)
    (hj : index[j]? = some t) (hij : i < j) : toRat s < toRat t := by
  obtain ⟨hi', rfl⟩ := List.getElem?_eq_some_iff.mp hi
  obtain ⟨hj', rfl⟩ := List.getElem?_eq_some_iff.mp hj
  exact List.pairwise_iff_getElem.mp h.pairwise i j hi' hj' hij

theorem le_of_le {i j : Nat} {s t : α} (h : Ordered index) (hi : index[i]? = some s)
    (hj : index[j]? = some t) (hij : i ≤ j) : toRat s ≤ toRat t := by
  rcases hij.lt_or_eq with hlt | rfl
  · exact (h.before hi hj hlt).le
  · exact (congrArg toRat (Option.some.inj (hi.symm.trans hj))).le

/-- A time occurs only once. -/
theorem eq_of_toRat_eq {i j : Nat} {s t : α} (h : Ordered index) (hi : index[i]? = some s)
    (hj : index[j]? = some t) (heq : toRat s = toRat t) : i = j := by
  rcases lt_trichotomy i j with hij | rfl | hij
  · exact absurd heq (h.before hi hj hij).ne
  · rfl
  · exact absurd heq (h.before hj hi hij).ne'

theorem first_le {i : Nat} {first t : α} (h : Ordered index) (hfirst : index.head? = some first)
    (hi : index[i]? = some t) : toRat first ≤ toRat t :=
  h.le_of_le (List.head?_eq_getElem? ▸ hfirst) hi (Nat.zero_le i)

theorem le_last {i : Nat} {last t : α} (h : Ordered index) (hlast : index.getLast? = some last)
    (hi : index[i]? = some t) : toRat t ≤ toRat last := by
  have hlt := (List.getElem?_eq_some_iff.mp hi).1
  exact h.le_of_le hi (List.getLast?_eq_getElem? ▸ hlast) (by omega)

end Ordered

/-! ## Searching -/

/-- Halving finds the place where the values that satisfy `p` end, if they all come first. -/
theorem partitionPointWithin_eq {β : Type} {p : β → Bool} {xs : List β} {n k : Nat}
    (hp : ∀ i x, xs[i]? = some x → (p x = true ↔ i < k)) (hn : n ≤ xs.length) :
    partitionPointWithin p xs n = min k n := by
  -- the list and `k` vary, as going on in the second half drops the first one from both
  induction n using Nat.strong_induction_on generalizing xs k with
  | _ n ih =>
    unfold partitionPointWithin
    split <;> rename_i hsmall
    · rcases xs with - | ⟨x, xs⟩
      · obtain rfl : n = 0 := by simpa using hn
        simp
      · have hx := hp 0 x rfl
        obtain rfl | rfl : n = 0 ∨ n = 1 := by omega
        · simp
        · by_cases hk : 0 < k
          · simp [hx.mpr hk]
            omega
          · have : p x = false := by simpa using mt hx.mp hk
            simp [this]
            omega
    · dsimp only
      have hhalf : n / 2 < xs.length := by omega
      have hmid := hp (n / 2) xs[n / 2] (List.getElem?_eq_getElem hhalf)
      have hhead : (xs.drop (n / 2)).head?.any p = p xs[n / 2] := by
        rw [List.head?_drop, List.getElem?_eq_getElem hhalf, Option.any_some]
      rw [hhead]
      split <;> rename_i hx
      · -- the values end in the second half
        have hlt := hmid.mp hx
        rw [ih (n - n / 2) (by omega) (k := k - n / 2) ?_ (by rw [List.length_drop]; omega)]
        · omega
        · intro i x hi
          rw [List.getElem?_drop] at hi
          rw [hp _ x hi]
          omega
      · have hge := mt hmid.mpr hx
        rw [ih (n - n / 2) (by omega) hp (by omega)]
        omega

/-- The leading values that satisfy `p` are all that do, if none comes after one that does not. -/
theorem lt_length_takeWhile {β : Type} {p : β → Bool} {xs : List β}
    (h : xs.Pairwise fun a b => p b = true → p a = true) {i : Nat} {x : β} (hi : xs[i]? = some x) :
    p x = true ↔ i < (xs.takeWhile p).length := by
  induction xs generalizing i with
  | nil => simp at hi
  | cons a rest ih =>
    obtain ⟨ha, hrest⟩ := List.pairwise_cons.mp h
    rw [List.takeWhile_cons]
    rcases i with - | i
    · obtain rfl : a = x := by simpa using hi
      split <;> simp [*]
    · rw [List.getElem?_cons_succ] at hi
      split <;> rename_i hpa
      · rw [ih hrest hi, List.length_cons]
        omega
      · exact iff_of_false (fun hx => hpa (ha x (List.mem_of_getElem? hi) hx)) (Nat.not_lt_zero _)

theorem partitionPoint_eq {β : Type} {p : β → Bool} {xs : List β}
    (h : xs.Pairwise fun a b => p b = true → p a = true) :
    partitionPoint p xs = (xs.takeWhile p).length := by
  rw [partitionPoint, partitionPointWithin_eq (fun i x => lt_length_takeWhile h) le_rfl]
  exact min_eq_left (List.takeWhile_sublist p).length_le

variable {index : List α} {target : α}

namespace Ordered

/-- The times before a given one come first in an ordered index. -/
theorem pairwise_lt (h : Ordered index) (target : α) :
    index.Pairwise fun a b => lt b target = true → lt a target = true := by
  refine h.pairwise.imp_of_mem fun ha _ hab hb => ?_
  rw [LawfulScalar.lt_iff] at hb ⊢
  exact ⟨h.isMissing_of_mem ha, hb.2.1, hab.trans hb.2.2⟩

/-- The search for a time finds how many times are before it. -/
theorem lt_partitionPoint (h : Ordered index) (ht : isMissing target = false) {i : Nat} {t : α}
    (hi : index[i]? = some t) :
    toRat t < toRat target ↔ i < partitionPoint (lt · target) index := by
  rw [partitionPoint_eq (h.pairwise_lt target), ← lt_length_takeWhile (h.pairwise_lt target) hi,
    lt_eq (h.isMissing_of_mem (List.mem_of_getElem? hi)) ht, decide_eq_true_eq]

theorem partitionPoint_le (h : Ordered index) (target : α) :
    partitionPoint (lt · target) index ≤ index.length := by
  rw [partitionPoint_eq (h.pairwise_lt target)]
  exact (List.takeWhile_sublist _).length_le

end Ordered

/-! ## Looking up a time -/

omit [LawfulScalar α] in
/-- The closer of two rows is one of them. -/
theorem closer_cases {b a row : Nat} (hl : closer index target b a = some row) :
    row = b ∨ row = a := by
  unfold closer at hl
  split at hl
  · split at hl
    · exact .inl (Option.some.inj hl).symm
    · exact .inr (Option.some.inj hl).symm
  · cases hl

/-- A row that can stand for a time: the rows before it are earlier and the rows after it later. -/
structure Stands (index : List α) (target : α) (row : Nat) : Prop where
  lt_length : row < index.length
  before : ∀ i t, index[i]? = some t → i < row → toRat t < toRat target
  after : ∀ i t, index[i]? = some t → row < i → toRat target < toRat t

/-- A time that misses the index: `n` rows are earlier and the others later. -/
structure Misses (index : List α) (target : α) (n : Nat) : Prop where
  le_length : n ≤ index.length
  before : ∀ i t, index[i]? = some t → i < n → toRat t < toRat target
  after : ∀ i t, index[i]? = some t → n ≤ i → toRat target < toRat t

/-- A time that misses the index is not that of a row. -/
theorem Misses.ne {n : Nat} {t : α} (hm : Misses index target n) (ht : t ∈ index) :
    toRat target ≠ toRat t := by
  obtain ⟨i, hi⟩ := List.mem_iff_getElem?.mp ht
  rcases lt_or_ge i n with hlt | hge
  · exact (hm.before i t hi hlt).ne'
  · exact (hm.after i t hi hge).ne

/-- When a later row stands for the earlier one of two times, the rows are neighbours and both times
lie between them. -/
theorem Stands.misses {a b : α} {p q : Nat} (hp : Stands index a p) (hq : Stands index b q)
    (hab : toRat a ≤ toRat b) (hqp : q < p) :
    p = q + 1 ∧ Misses index a p ∧ Misses index b p := by
  have hnext : p = q + 1 := by
    by_contra hne
    have hmid := List.getElem?_eq_getElem (show q + 1 < index.length by have := hp.lt_length; omega)
    have hlo := hp.before _ _ hmid (by omega)
    have hhi := hq.after _ _ hmid (by omega)
    exact (hlo.trans_le hab).not_gt hhi
  refine ⟨hnext, ⟨hp.lt_length.le, hp.before, fun i t hi hle => ?_⟩,
    ⟨hp.lt_length.le, fun i t hi hlt => ?_, fun i t hi hle => hq.after i t hi (by omega)⟩⟩
  · exact hab.trans_lt (hq.after i t hi (by omega))
  · exact (hp.before i t hi hlt).trans_le hab

namespace Ordered

/-- A time is that of a row, or it misses the index. -/
theorem hits_or_misses (h : Ordered index) (ht : isMissing target = false) :
    (∃ (i : Nat) (t : α), index[i]? = some t ∧ toRat t = toRat target) ∨
      ∃ n, Misses index target n := by
  have hlt := fun i (t : α) => h.lt_partitionPoint ht (i := i) (t := t)
  have hle := h.partitionPoint_le target
  generalize partitionPoint (lt · target) index = n at *
  -- the search counts the earlier times; unless one is hit, all others are later
  by_cases hhit : ∃ (i : Nat) (t : α), index[i]? = some t ∧ toRat t = toRat target
  · exact .inl hhit
  · refine .inr ⟨n, hle, fun i t hi => (hlt i t hi).mpr, fun i t hi hni => ?_⟩
    have hge := mt (hlt i t hi).mp hni.not_gt
    exact lt_of_le_of_ne (not_lt.mp hge) fun heq => hhit ⟨i, t, hi, heq.symm⟩

/-- A row stands for its own time. -/
theorem stands (h : Ordered index) {i : Nat} {t : α} (hi : index[i]? = some t)
    (heq : toRat t = toRat target) : Stands index target i where
  lt_length := (List.getElem?_eq_some_iff.mp hi).1
  before _ s hj hlt := heq ▸ h.before (s := s) hj hi hlt
  after _ s hj hlt := heq ▸ h.before (t := s) hi hj hlt

/-- A time of the index is found at its own row. -/
theorem locate_hit (h : Ordered index) (ht : isMissing target = false) {i : Nat} {t : α}
    (hi : index[i]? = some t) (heq : toRat t = toRat target) (seek : Seek) :
    locate index target seek = some i := by
  have hlt := fun i (t : α) => h.lt_partitionPoint ht (i := i) (t := t)
  have hle := h.partitionPoint_le target
  unfold locate
  generalize partitionPoint (lt · target) index = n at *
  have hlen := (List.getElem?_eq_some_iff.mp hi).1
  -- the earlier times are exactly those before the row that is hit
  have hge : n ≤ i := not_lt.mp fun hc => heq.not_lt ((hlt i t hi).mpr hc)
  obtain rfl : n = i := by
    by_contra hne
    have hn := List.getElem?_eq_getElem (show n < index.length by omega)
    have := h.before hn hi (by omega)
    exact lt_irrefl n ((hlt n _ hn).mp (heq ▸ this))
  have hexact : index[n]?.any (eq · target) = true := by
    simp [hi, eq_eq (h.isMissing_of_mem (List.mem_of_getElem? hi)) ht, heq]
  dsimp only
  rw [if_pos hexact]

/-- What is found for a time of the index is its own row. -/
theorem eq_of_locate (h : Ordered index) (ht : isMissing target = false) {i row : Nat} {t : α}
    {seek : Seek} (hi : index[i]? = some t) (heq : toRat t = toRat target)
    (hl : locate index target seek = some row) : row = i :=
  Option.some.inj (hl.symm.trans (h.locate_hit ht hi heq seek))

/-- Where a time that misses the index is found. -/
theorem locate_miss (h : Ordered index) (ht : isMissing target = false) {n : Nat}
    (hm : Misses index target n) (seek : Seek) :
    locate index target seek =
      let before := if n = 0 then none else some (n - 1)
      let after := if n < index.length then some n else none
      match seek with
      | .pad => before
      | .backfill => after
      | .nearest =>
        match before, after with
        | some b, some a => closer index target b a
        | b, a => b.or a := by
  have hlt := fun i (t : α) => h.lt_partitionPoint ht (i := i) (t := t)
  have hle := h.partitionPoint_le target
  unfold locate
  generalize partitionPoint (lt · target) index = k at *
  obtain ⟨hmle, hbefore, hafter⟩ := hm
  obtain rfl : k = n := by
    -- a time between `k` and `n` would be both earlier and later than the target
    rcases lt_trichotomy k n with hkn | rfl | hkn
    · have hk := List.getElem?_eq_getElem (show k < index.length by omega)
      exact absurd ((hlt k _ hk).mp (hbefore k _ hk hkn)) (lt_irrefl k)
    · rfl
    · have hn := List.getElem?_eq_getElem (show n < index.length by omega)
      exact absurd ((hlt n _ hn).mpr hkn) (hafter n _ hn le_rfl).not_gt
  have hexact : ¬ index[k]?.any (eq · target) = true := by
    rw [Option.any_eq_true]
    rintro ⟨t, hk, heq⟩
    rw [LawfulScalar.eq_iff] at heq
    exact (hafter k t hk le_rfl).ne' heq.2.2
  exact (if_neg hexact).trans rfl

variable {row : Nat} {seek : Seek} {first last : α}

/-- Only the row before and the row after a time that misses the index can be found. -/
theorem locate_miss_cases (h : Ordered index) (ht : isMissing target = false) {n : Nat}
    (hm : Misses index target n) (hl : locate index target seek = some row) :
    (row + 1 = n ∧ seek ≠ .backfill) ∨ (row = n ∧ n < index.length ∧ seek ≠ .pad) := by
  rw [h.locate_miss ht hm] at hl
  cases seek with
  | pad =>
    dsimp only at hl
    split at hl
    · cases hl
    · exact .inl ⟨by have := Option.some.inj hl; omega, (nomatch ·)⟩
  | backfill =>
    dsimp only at hl
    split at hl
    · exact .inr ⟨(Option.some.inj hl).symm, ‹_›, (nomatch ·)⟩
    · cases hl
  | nearest =>
    rcases Nat.eq_zero_or_pos n with rfl | hpos
    · rcases index with - | ⟨t, index⟩
      · cases hl
      · exact .inr ⟨(Option.some.inj hl).symm, Nat.succ_pos _, (nomatch ·)⟩
    · rcases Nat.lt_or_ge n index.length with hlen | hlen
      · simp only [if_neg hpos.ne', if_pos hlen] at hl
        rcases closer_cases hl with rfl | rfl
        · exact .inl ⟨by omega, (nomatch ·)⟩
        · exact .inr ⟨rfl, hlen, (nomatch ·)⟩
      · simp only [if_neg hpos.ne', if_neg hlen.not_gt, Option.or_none] at hl
        exact .inl ⟨by have := Option.some.inj hl; omega, (nomatch ·)⟩

/-- The row that is found stands for the time. -/
theorem stands_of_locate (h : Ordered index) (ht : isMissing target = false)
    (hl : locate index target seek = some row) : Stands index target row := by
  rcases h.hits_or_misses ht with ⟨i, t, hi, heq⟩ | ⟨n, hm⟩
  · obtain rfl := h.eq_of_locate ht hi heq hl
    exact h.stands hi heq
  · have hle := hm.le_length
    rcases h.locate_miss_cases ht hm hl with ⟨hrow, -⟩ | ⟨rfl, hn, -⟩
    · exact {
        lt_length := by omega
        before := fun i t hi hlt => hm.before i t hi (by omega)
        after := fun i t hi hlt => hm.after i t hi (by omega) }
    · exact {
        lt_length := hn
        before := fun i t hi hlt => hm.before i t hi hlt
        after := fun i t hi hlt => hm.after i t hi hlt.le }

/-- Padding finds a row that is not later. -/
theorem locate_pad_le (h : Ordered index) (ht : isMissing target = false)
    (hl : locate index target .pad = some row) {t : α} (hrow : index[row]? = some t) :
    toRat t ≤ toRat target := by
  rcases h.hits_or_misses ht with ⟨i, s, hi, heq⟩ | ⟨n, hm⟩
  · obtain rfl := h.eq_of_locate ht hi heq hl
    exact (Option.some.inj (hi.symm.trans hrow) ▸ heq).le
  · rcases h.locate_miss_cases ht hm hl with ⟨hn, -⟩ | ⟨-, -, hpad⟩
    · exact (hm.before row t hrow (by omega)).le
    · exact absurd rfl hpad

/-- Filling back finds a row that is not earlier. -/
theorem le_locate_backfill (h : Ordered index) (ht : isMissing target = false)
    (hl : locate index target .backfill = some row) {t : α} (hrow : index[row]? = some t) :
    toRat target ≤ toRat t := by
  rcases h.hits_or_misses ht with ⟨i, s, hi, heq⟩ | ⟨n, hm⟩
  · obtain rfl := h.eq_of_locate ht hi heq hl
    exact (Option.some.inj (hi.symm.trans hrow) ▸ heq).ge
  · rcases h.locate_miss_cases ht hm hl with ⟨-, hback⟩ | ⟨rfl, -, -⟩
    · exact absurd rfl hback
    · exact (hm.after row t hrow le_rfl).le

/-- A time between the first and the last one is found, whatever the seek. -/
theorem exists_locate (h : Ordered index) (ht : isMissing target = false)
    (hfirst : index.head? = some first) (hlast : index.getLast? = some last)
    (hlo : toRat first ≤ toRat target) (hhi : toRat target ≤ toRat last) (seek : Seek) :
    ∃ row, locate index target seek = some row := by
  rcases h.hits_or_misses ht with ⟨i, t, hi, heq⟩ | ⟨n, hm⟩
  · exact ⟨i, h.locate_hit ht hi heq seek⟩
  rw [List.head?_eq_getElem?] at hfirst
  rw [List.getLast?_eq_getElem?] at hlast
  -- the target lies inside, so there is a row on either side of it
  have hpos : n ≠ 0 := by
    rintro rfl
    exact hlo.not_gt (hm.after 0 first hfirst le_rfl)
  have hlen : n < index.length := by
    by_contra hge
    have hlt := (List.getElem?_eq_some_iff.mp hlast).1
    exact hhi.not_gt (hm.before _ last hlast (by omega))
  rw [h.locate_miss ht hm]
  simp only [if_neg hpos, if_pos hlen]
  cases seek with
  | pad => exact ⟨_, rfl⟩
  | backfill => exact ⟨_, rfl⟩
  | nearest =>
    have hb := List.getElem?_eq_getElem (show n - 1 < index.length by omega)
    simp only [closer, hb, List.getElem?_eq_getElem hlen]
    split <;> exact ⟨_, rfl⟩

variable {a b : α} {p q : Nat}

/-- A later time is found at a later row or at the same one. -/
theorem locate_mono (h : Ordered index) (ha : Scalar.isMissing a = false)
    (hb : Scalar.isMissing b = false) (hab : toRat a ≤ toRat b)
    (hp : locate index a seek = some p) (hq : locate index b seek = some q) : p ≤ q := by
  by_contra hlt
  have hlt := not_le.mp hlt
  -- otherwise both times lie between the same two rows, and each seek decides alike for them
  obtain ⟨hnext, hma, hmb⟩ :=
    (h.stands_of_locate ha hp).misses (h.stands_of_locate hb hq) hab hlt
  cases seek with
  | pad =>
    have hrow := List.getElem?_eq_getElem (h.stands_of_locate ha hp).lt_length
    exact (h.locate_pad_le ha hp hrow).not_gt (hma.after p _ hrow le_rfl)
  | backfill =>
    have hrow := List.getElem?_eq_getElem (h.stands_of_locate hb hq).lt_length
    exact (h.le_locate_backfill hb hq hrow).not_gt (hmb.before q _ hrow hlt)
  | nearest =>
    have hplen := (h.stands_of_locate ha hp).lt_length
    have hs := List.getElem?_eq_getElem (show q < index.length by omega)
    have ht := List.getElem?_eq_getElem hplen
    generalize index[q] = s at hs
    generalize index[p] = t at ht
    have hs' := h.1 s (List.mem_of_getElem? hs)
    have ht' := h.1 t (List.mem_of_getElem? ht)
    have hpq : p - 1 = q := by omega
    -- both times lie between the two rows, so they are finite and have distances to them
    have ha' := LawfulScalar.isFinite_of_le_of_le s a t hs' ht' ha (hma.before q s hs hlt).le
      (hma.after p t ht le_rfl).le
    have hb' := LawfulScalar.isFinite_of_le_of_le s b t hs' ht' hb (hmb.before q s hs hlt).le
      (hmb.after p t ht le_rfl).le
    rw [h.locate_miss ha hma] at hp
    rw [h.locate_miss hb hmb] at hq
    simp only [if_neg (show p ≠ 0 by omega), if_pos hplen, closer, hpq, hs, ht] at hp hq
    have hlo : toRat (a - s) ≤ toRat (b - s) :=
      LawfulScalar.sub_le_sub a s b s ha' hs' hb' hs' hab le_rfl
    have hhi : toRat (t - b) ≤ toRat (t - a) :=
      LawfulScalar.sub_le_sub t b t a ht' hb' ht' ha' le_rfl hab
    rw [lt_eq (LawfulScalar.isMissing_sub a s ha' hs')
      (LawfulScalar.isMissing_sub t a ht' ha')] at hp
    rw [lt_eq (LawfulScalar.isMissing_sub b s hb' hs')
      (LawfulScalar.isMissing_sub t b ht' hb')] at hq
    -- `a` is not closer to the row before it, and `b` is
    have hpa : ¬ toRat (a - s) < toRat (t - a) := fun hc => by
      simp only [hc, decide_true, if_true, Option.some.injEq] at hp
      omega
    have hqb : toRat (b - s) < toRat (t - b) := by
      by_contra hc
      simp only [hc, decide_false, Bool.false_eq_true, if_false, Option.some.injEq] at hq
      omega
    exact hpa ((hlo.trans_lt hqb).trans_le hhi)

end Ordered

end StepSignal
