import StepSignal.Proofs.Binary64.Integers
import StepSignal.Proofs.Cell
import StepSignal.Proofs.Table

/-!
# Agreement of integers and numbers

A filter compares two integers exactly and an integer with a number as numbers, for which it rounds
the integer to the nearest double. So an integer agrees with a number of its value, and only with
that, as long as it is a double. Past `2 ^ 53` an integer can agree with the number that a neighbour
is, and then agreement is not transitive: the number agrees with both integers, and they are not
equal.

Writing integers of a table as numbers of the same value therefore keeps what a filter selects,
unless the filter asks for an integer that is not a double. Then it can select more rows.
-/

namespace StepSignal

open Binary64
open Scalar (toRat)

/-! ## What cells are compared by -/

section Compared

variable {α : Type} [Scalar α] [LawfulScalar α] {a b c : Cell α}

namespace Cell

/-- The exact cell that a filter compares unless both cells are integers: a number for an integer. -/
def compared : Cell α → Cell Exact
  | int n => num (StepSignal.exactly (Scalar.ofInt n.toInt : α))
  | c => c.exactly

/-- Unless both are integers, cells agree if what is compared is equal and not missing. -/
theorem agrees_iff (h : a.int? = none ∨ b.int? = none) :
    a.agrees b = true ↔ a.compared = b.compared ∧ a.compared ≠ num .missing := by
  have hnumber : ∀ x y : α, Scalar.eq x y = true ↔
      (num (StepSignal.exactly x) : Cell Exact) = num (StepSignal.exactly y) ∧
        num (StepSignal.exactly x) ≠ num .missing := fun x y => by
    rw [Scalar.eq_iff_exactly, num.injEq, ne_eq, ne_eq, num.injEq]
  cases a with
  | int m =>
    cases b with
    | int n => exact absurd h (by simp [int?])
    | num y => exact hnumber _ y
    | null | bool q | text t => exact iff_of_false Bool.false_ne_true (nomatch ·.1)
  | num x =>
    cases b with
    | int n => exact hnumber x _
    | num y => exact hnumber x y
    | null | bool q | text t => exact iff_of_false Bool.false_ne_true (nomatch ·.1)
  | null | bool p | text s =>
    cases b with
    | int n | num y => exact iff_of_false Bool.false_ne_true (nomatch ·.1)
    | null | bool q | text t => exact (same_iff _ _).trans (and_iff_left nofun).symm

omit [LawfulScalar α] in
theorem agrees_int_iff {m n : Int64} : (int m : Cell α).agrees (int n) = true ↔ m = n := beq_iff_eq

omit [Scalar α] [LawfulScalar α] in
theorem eq_int_of_int? (h : ¬ (a.int? = none ∨ b.int? = none)) :
    ∃ m n, a = int m ∧ b = int n := by
  rw [not_or] at h
  cases a <;> cases b <;> simp_all [int?]

theorem agrees_comm (a b : Cell α) : a.agrees b = b.agrees a := by
  rw [Bool.eq_iff_iff]
  by_cases h : a.int? = none ∨ b.int? = none
  · rw [agrees_iff h, agrees_iff h.symm]
    exact ⟨fun ⟨heq, hne⟩ => ⟨heq.symm, heq ▸ hne⟩, fun ⟨heq, hne⟩ => ⟨heq.symm, heq ▸ hne⟩⟩
  · obtain ⟨m, n, rfl, rfl⟩ := eq_int_of_int? h
    rw [agrees_int_iff, agrees_int_iff]
    exact eq_comm

/-- What agrees is compared by the same value. -/
theorem compared_eq_of_agrees (h : a.agrees b = true) : a.compared = b.compared := by
  by_cases hints : a.int? = none ∨ b.int? = none
  · exact ((agrees_iff hints).mp h).1
  · obtain ⟨m, n, rfl, rfl⟩ := eq_int_of_int? hints
    rw [agrees_int_iff.mp h]

end Cell

end Compared

/-! ## Integers and doubles -/

namespace Cell

variable {n : Int64} {x : Float} {a b c : Cell Float}

theorem compared_num_iff {q : Rat} :
    (num x).compared = num (.num q) ↔ x.isNaN = false ∧ toRat x = q :=
  (num.injEq _ _).to_iff.trans exactly_eq_num_iff

theorem compared_int (n : Int64) :
    (int n : Cell Float).compared = num (.num (roundInt n.toInt)) := by
  obtain ⟨hfinite, hvalue⟩ := ofInt_rounds (natAbs_toInt_le n)
  exact compared_num_iff.mpr ⟨isNaN_of_isFinite hfinite, hvalue⟩

/-- An integer agrees with the number that it is rounded to. -/
theorem agrees_int_num_iff :
    (int n).agrees (num x) = true ↔ x.isFinite = true ∧ toRat x = roundInt n.toInt := by
  rw [agrees_iff (.inr rfl), compared_int, and_iff_left nofun, eq_comm, compared_num_iff]
  exact ⟨fun ⟨hx, hvalue⟩ => ⟨isFinite_of_toRat_eq (natAbs_toInt_le n) hx hvalue, hvalue⟩,
    fun ⟨hx, hvalue⟩ => ⟨isNaN_of_isFinite hx, hvalue⟩⟩

/-- An integer agrees with the numbers of its value alone when it is a double. -/
theorem agrees_by_value_iff :
    (∀ x : Float, (int n).agrees (num x) = true ↔ x.isFinite = true ∧ toRat x = n.toInt) ↔
      IsDouble n.toInt := by
  have hn := natAbs_toInt_le n
  constructor
  · intro h
    have hagrees := (h (Float.ofInt n.toInt)).mp (agrees_int_num_iff.mpr (ofInt_rounds hn))
    exact ⟨_, hagrees⟩
  · intro h x
    rw [agrees_int_num_iff, (isDouble_iff hn).mp h]

/-- What is missing agrees with nothing. -/
theorem compared_ne_missing (h : a.agrees b = true) : a.compared ≠ num .missing := by
  by_cases hints : a.int? = none ∨ b.int? = none
  · exact ((agrees_iff hints).mp h).2
  · obtain ⟨m, n, rfl, rfl⟩ := eq_int_of_int? hints
    rw [compared_int]
    exact nofun

/-- Agreement is transitive, except between two integers that are rounded to the same double. -/
theorem agrees_trans (hab : a.agrees b = true) (hbc : b.agrees c = true) :
    a.agrees c = true ∨ ∃ (m n : Int64) (x : Float), m ≠ n ∧
      roundInt m.toInt = roundInt n.toInt ∧ a = int m ∧ b = num x ∧ c = int n := by
  have hac : a.compared = c.compared := (compared_eq_of_agrees hab).trans (compared_eq_of_agrees hbc)
  by_cases hints : a.int? = none ∨ c.int? = none
  · exact .inl ((agrees_iff hints).mpr ⟨hac, compared_ne_missing hab⟩)
  obtain ⟨m, n, rfl, rfl⟩ := eq_int_of_int? hints
  rw [agrees_int_iff]
  by_cases hmn : m = n
  · exact .inl hmn
  cases b with
  | int k => exact absurd ((agrees_int_iff.mp hab).trans (agrees_int_iff.mp hbc)) hmn
  | num x =>
    rw [compared_int, compared_int, num.injEq, Exact.num.injEq, Int.cast_inj] at hac
    exact .inr ⟨m, n, x, hmn, hac, rfl, rfl, rfl⟩
  | null | bool p | text s => exact nomatch compared_eq_of_agrees hab

end Cell

/-! ## Filtering integers that are written as numbers -/

/-- A cell, or the number of the same value for an integer. -/
inductive Cell.Restated : Cell Float → Cell Float → Prop
  | refl (c : Cell Float) : Restated c c
  | number {n : Int64} {x : Float} (hx : x.isFinite = true) (hvalue : toRat x = n.toInt) :
    Restated (.int n) (.num x)

/-- A table with some of its integers written as numbers of the same value. -/
structure Table.Restated (t t' : Table Float) : Prop where
  names : t'.names = t.names
  rows : List.Forall₂ (fun row row' => row'.time = row.time ∧
    List.Forall₂ Cell.Restated row.value row'.value) t.rows t'.rows

namespace Cell

variable {c c' w : Cell Float}

/-- A number that an integer is written as is compared as the integer is. -/
theorem Restated.compared (h : c.Restated c') : c'.compared = c.compared := by
  cases h with
  | refl => rfl
  | @number n x hx hvalue =>
    have hround := (isDouble_iff (natAbs_toInt_le n)).mp ⟨x, hx, hvalue⟩
    rw [compared_int, compared_num_iff]
    exact ⟨isNaN_of_isFinite hx, hvalue.trans (congrArg Int.cast hround.symm)⟩

/-- What agrees with an integer agrees with the number that it is written as. The other way round,
this is so unless it is an integer that is rounded. -/
theorem Restated.agrees (h : c.Restated c') (w : Cell Float) :
    (c.agrees w = true → c'.agrees w = true) ∧
      ((∀ m, w = int m → IsDouble m.toInt) → c'.agrees w = c.agrees w) := by
  have hcompared := h.compared
  cases h with
  | refl => exact ⟨id, fun _ => rfl⟩
  | @number n x hx hvalue =>
    have hagrees : (num x).agrees w = true ↔ (int n : Cell Float).compared = w.compared := by
      rw [agrees_iff (.inl rfl), hcompared, compared_int, and_iff_left nofun]
    refine ⟨fun h => hagrees.mpr (compared_eq_of_agrees h), fun hw => ?_⟩
    rw [Bool.eq_iff_iff, hagrees]
    refine ⟨fun h => ?_, compared_eq_of_agrees⟩
    cases w with
    | int m =>
      -- neither integer is rounded, so they are told apart
      have hn := (isDouble_iff (natAbs_toInt_le n)).mp ⟨x, hx, hvalue⟩
      have hm := (isDouble_iff (natAbs_toInt_le m)).mp (hw m rfl)
      rw [compared_int, compared_int, hn, hm, num.injEq, Exact.num.injEq, Int.cast_inj] at h
      exact agrees_int_iff.mpr (Int64.toInt_inj.mp h)
    | num y | null | bool p | text s =>
      rw [agrees_iff (.inr rfl), and_iff_left (by rw [compared_int]; exact nofun)]
      exact h

/-- Cells in the same place are the same or restated. -/
theorem restated_cellAt {row row' : CellRow Float} (h : List.Forall₂ Restated row.value row'.value)
    (i : Nat) : Restated (cellAt row i) (cellAt row' i) := by
  unfold cellAt
  generalize row.value = cells at *
  generalize row'.value = cells' at *
  induction h generalizing i with
  | nil => exact .refl _
  | cons hcell _ ih =>
    cases i with
    | zero => exact hcell
    | succ i => exact ih i

end Cell

namespace Table

section Conditions

variable {α : Type} [Scalar α]

/-- Whether a row agrees with conditions on the columns at some positions. -/
def rowAgrees (positions : List Nat) (wanted : List (Cell α)) (row : CellRow α) : Bool :=
  (positions.zip wanted).all fun (i, cell) => (cellAt row i).agrees cell

theorem whereCells_eq (t : Table α) (conditions : List (String × Cell α)) :
    t.whereCells conditions = (t.positions (conditions.map (·.1))).map fun positions =>
      { t with rows := t.rows.filter (rowAgrees positions (conditions.map (·.2))) } := by
  unfold whereCells
  cases t.positions (conditions.map (·.1)) <;> rfl

end Conditions

variable {t t' : Table Float} {row row' : CellRow Float}

theorem Restated.positions (h : t.Restated t') (names : List String) :
    t'.positions names = t.positions names := by
  unfold Table.positions Table.position Table.position?
  rw [h.names]

/-- A row that agrees with conditions still does so when it is restated. Conditions without rounded
integers agree with the same rows. -/
theorem rowAgrees_restated (h : List.Forall₂ Cell.Restated row.value row'.value)
    (positions : List Nat) (wanted : List (Cell Float)) :
    (rowAgrees positions wanted row = true → rowAgrees positions wanted row' = true) ∧
      ((∀ m, .int m ∈ wanted → IsDouble m.toInt) →
        rowAgrees positions wanted row' = rowAgrees positions wanted row) := by
  have hcell := fun (i : Nat) => (Cell.restated_cellAt h i).agrees
  unfold rowAgrees
  constructor
  · rw [List.all_eq_true, List.all_eq_true]
    exact fun hall condition hmem => (hcell _ _).1 (hall condition hmem)
  · intro hwanted
    rw [Bool.eq_iff_iff, List.all_eq_true, List.all_eq_true]
    refine forall₂_congr fun condition hmem => Bool.eq_iff_iff.mp ?_
    exact (hcell _ _).2 fun m hm => hwanted m (hm ▸ (List.of_mem_zip hmem).2)

/-- A filter of a restated table fails as the filter of the table does, and keeps all rows that this
keeps. Unless it asks for an integer that is rounded, it keeps the same rows. -/
theorem Restated.whereCells (h : t.Restated t') (conditions : List (String × Cell Float)) :
    (∀ fault, t.whereCells conditions = .error fault → t'.whereCells conditions = .error fault) ∧
      ∀ out, t.whereCells conditions = .ok out → ∃ kept kept' : List Bool,
        kept.length = t.length ∧
        List.Forall₂ (fun keep keep' => keep = true → keep' = true) kept kept' ∧
        out = { t with rows := pick kept t.rows } ∧
        t'.whereCells conditions = .ok { t' with rows := pick kept' t'.rows } ∧
        ((∀ m, .int m ∈ conditions.map (·.2) → IsDouble m.toInt) → kept' = kept) := by
  rw [whereCells_eq, whereCells_eq, h.positions]
  cases t.positions (conditions.map (·.1)) with
  | error fault => exact ⟨fun _ => id, nofun⟩
  | ok positions =>
    refine ⟨nofun, fun out hout => ?_⟩
    generalize conditions.map (·.2) = wanted at *
    have hrows := h.rows.imp fun row row' hrow => rowAgrees_restated hrow.2 positions wanted
    refine ⟨t.rows.map (rowAgrees positions wanted), t'.rows.map (rowAgrees positions wanted),
      List.length_map _, ?_, ?_, ?_, fun hwanted => ?_⟩
    · rw [List.forall₂_map_left_iff, List.forall₂_map_right_iff]
      exact hrows.imp fun _ _ hrow => hrow.1
    · rw [pick_map]
      exact (Except.ok.inj hout).symm
    · rw [pick_map]
      rfl
    · rw [← List.forall₂_eq_eq_eq, List.forall₂_map_left_iff, List.forall₂_map_right_iff]
      exact (hrows.imp fun _ _ hrow => hrow.2 hwanted).flip

end Table

/-- **Agreement is by value up to the rounding of integers.** An integer agrees with a number, in
either order, when the number is finite and is the integer rounded to 53 bits. It agrees with the
numbers of its value alone when it is a double, as all integers up to `2 ^ 53` are. Agreement is
transitive, except that a number can agree with two integers that are rounded to it. A filter keeps
the same rows when integers of the table are written as numbers of the same value, except that it can
keep more when it asks for an integer that is not a double. -/
theorem agreement_up_to_rounding (n : Int64) (a b c : Cell Float) (t t' : Table Float)
    (conditions : List (String × Cell Float)) :
    ((∀ x : Float,
        ((Cell.int n).agrees (.num x) = true ↔ x.isFinite = true ∧ toRat x = roundInt n.toInt) ∧
        ((Cell.num x).agrees (.int n) = true ↔ x.isFinite = true ∧ toRat x = roundInt n.toInt)) ∧
      ((∀ x : Float, (Cell.int n).agrees (.num x) = true ↔
        x.isFinite = true ∧ toRat x = n.toInt) ↔ IsDouble n.toInt) ∧
      (n.toInt.natAbs ≤ 2 ^ 53 → IsDouble n.toInt)) ∧
    (a.agrees b = true → b.agrees c = true →
      a.agrees c = true ∨ ∃ (m k : Int64) (x : Float), m ≠ k ∧
        roundInt m.toInt = roundInt k.toInt ∧ a = .int m ∧ b = .num x ∧ c = .int k) ∧
    (t.Restated t' →
      (∀ fault, t.whereCells conditions = .error fault → t'.whereCells conditions = .error fault) ∧
      ∀ out, t.whereCells conditions = .ok out → ∃ kept kept' : List Bool,
        kept.length = t.length ∧
        List.Forall₂ (fun keep keep' => keep = true → keep' = true) kept kept' ∧
        out = { t with rows := pick kept t.rows } ∧
        t'.whereCells conditions = .ok { t' with rows := pick kept' t'.rows } ∧
        ((∀ m, .int m ∈ conditions.map (·.2) → IsDouble m.toInt) → kept' = kept)) := by
  refine ⟨⟨fun x => ⟨Cell.agrees_int_num_iff, ?_⟩, Cell.agrees_by_value_iff, isDouble_of_le⟩,
    Cell.agrees_trans, fun h => h.whereCells conditions⟩
  rw [Cell.agrees_comm]
  exact Cell.agrees_int_num_iff

/-- Ten agrees with the number ten, and a filter for it does not tell them apart. -/
theorem agreement_up_to_rounding_of_ten :
    let t : Table Float := ⟨["id"], [⟨0, [.int 10]⟩, ⟨1, [.int 11]⟩]⟩
    let t' : Table Float := ⟨["id"], [⟨0, [.num 10]⟩, ⟨1, [.int 11]⟩]⟩
    let conditions : List (String × Cell Float) := [("id", .int 10)]
    (IsDouble 10 ∧ (Cell.int 10).agrees (.num (10 : Float)) = true ∧
        (Cell.num (10 : Float)).agrees (.int 10) = true ∧ t.Restated t' ∧
        t.whereCells conditions = .ok { t with rows := t.rows.take 1 }) ∧
      toRat (10 : Float) = roundInt 10 ∧
      (Cell.int 10 : Cell Float).agrees (.int 10) = true ∧
      ∃ kept, t.whereCells conditions = .ok { t with rows := pick kept t.rows } ∧
        t'.whereCells conditions = .ok { t' with rows := pick kept t'.rows } := by
  intro t t' conditions
  obtain ⟨⟨hnumber, -, hdouble⟩, htrans, hfilter⟩ :=
    agreement_up_to_rounding 10 (.int 10) (.num 10) (.int 10) t t' conditions
  have hten : IsDouble 10 := hdouble (by decide)
  have hagrees : (Cell.int 10).agrees (.num (10 : Float)) = true := by decide +kernel
  have hback : (Cell.num (10 : Float)).agrees (.int 10) = true := by decide +kernel
  have hvalue : toRat (10 : Float) = (10 : Nat) := toRat_whole (by decide +kernel)
  have hrestated : t.Restated t' :=
    ⟨rfl, .cons ⟨rfl, .cons (.number (by decide +kernel) hvalue) .nil⟩
      (.cons ⟨rfl, .cons (.refl _) .nil⟩ .nil)⟩
  have hkept : t.whereCells conditions = .ok { t with rows := t.rows.take 1 } := by decide +kernel
  refine ⟨⟨hten, hagrees, hback, hrestated, hkept⟩, ((hnumber 10).1.mp hagrees).2, ?_, ?_⟩
  · exact (htrans hagrees hback).resolve_right
      fun ⟨m, n, _, hne, _, hm, _, hn⟩ => hne ((Cell.int.inj hm).symm.trans (Cell.int.inj hn))
  · obtain ⟨kept, kept', -, -, hout, hout', hsame⟩ := (hfilter hrestated).2 _ hkept
    rw [hsame fun m hm => by obtain rfl := Cell.int.inj (List.mem_singleton.mp hm); exact hten]
      at hout'
    exact ⟨kept, hkept.trans (congrArg Except.ok hout), hout'⟩

/-- The number `2 ^ 53` agrees with the integer after it, so that a filter for this integer finds it,
while the same integer in its place is not found. -/
theorem agreement_past_precision :
    let x : Float := 9007199254740992
    let t : Table Float := ⟨["id"], [⟨0, [.int 9007199254740992]⟩]⟩
    let t' : Table Float := ⟨["id"], [⟨0, [.num x]⟩]⟩
    let conditions : List (String × Cell Float) := [("id", .int 9007199254740993)]
    (x.isFinite = true ∧ toRat x = 9007199254740992 ∧
        (Cell.int 9007199254740993).agrees (.num x) = true ∧
        (Cell.num x).agrees (.int 9007199254740993) = true) ∧
      ((Cell.int 9007199254740992).agrees (.num x) = true ∧
        (Cell.int 9007199254740992 : Cell Float).agrees (.int 9007199254740993) = false) ∧
      t.Restated t' ∧ t.whereCells conditions = .ok { t with rows := [] } ∧
      t'.whereCells conditions = .ok t' := by
  intro x t t' conditions
  have hfinite : x.isFinite = true := by decide +kernel
  have hvalue : toRat x = (9007199254740992 : Nat) := toRat_whole (by decide +kernel)
  refine ⟨⟨hfinite, hvalue, by decide +kernel, by decide +kernel⟩,
    ⟨by decide +kernel, by decide +kernel⟩, ?_, by decide +kernel, by decide +kernel⟩
  exact ⟨rfl, .cons ⟨rfl, .cons (.number hfinite hvalue) .nil⟩ .nil⟩

end StepSignal
