import Mathlib.Data.List.SplitBy
import StepSignal.Proofs.Cell
import StepSignal.Proofs.Columns
import StepSignal.Proofs.InEffect
import StepSignal.Proofs.Repeats
import StepSignal.Proofs.Table

/-!
# Runs

Leaving out repeats among neighbours compares every row with the one right beside it in the list as
it was. If repeating is an equivalence, this keeps one row of each run, the first or the last of
rows that all repeat each other, and the signal that the rows write down stays the same: a kept
first row says what is in effect until the next run begins, and a kept last row says what has been
in effect since the run before ended.
-/

namespace StepSignal

open Scalar

section Lists

variable {β : Type}

/-! ## Maximal runs -/

/-- The runs that a list falls into: neighbours that are all the same, while no value of a run is
the same as one of the next run. -/
structure MaximalRuns (same : β → β → Prop) (xs : List β) (runs : List (List β)) : Prop where
  flatten : runs.flatten = xs
  nonempty : ∀ run ∈ runs, run ≠ []
  uniform : ∀ run ∈ runs, ∀ a ∈ run, ∀ b ∈ run, same a b
  maximal : runs.IsChain fun left right => ∀ a ∈ left, ∀ b ∈ right, ¬ same a b

/-- The value of a run that is kept. -/
def Keep.choose : Keep → List β → Option β
  | first => List.head?
  | last => List.getLast?

theorem Keep.exists_choose (keep : Keep) {run : List β} (h : run ≠ []) :
    ∃ a ∈ run, keep.choose run = some a := by
  cases keep with
  | first => exact ⟨_, List.head_mem h, List.head?_eq_some_head h⟩
  | last => exact ⟨_, List.getLast_mem h, List.getLast?_eq_some_getLast h⟩

variable {repeats : β → β → Bool} {xs : List β} {runs : List (List β)}

/-- Whatever is kept of maximal runs, no two neighbours of it are the same. -/
theorem MaximalRuns.isChain_choose {same : β → β → Prop} (h : MaximalRuns same xs runs)
    (keep : Keep) : (runs.filterMap keep.choose).IsChain fun a b => ¬ same a b := by
  obtain ⟨-, hne, -, hmax⟩ := h
  induction runs with
  | nil => exact .nil
  | cons run runs ih =>
    obtain ⟨a, ha, hchoose⟩ := keep.exists_choose (hne run List.mem_cons_self)
    rw [List.filterMap_cons_some hchoose]
    have hrest := ih (fun r hr => hne r (List.mem_cons_of_mem run hr)) hmax.tail
    refine hrest.cons fun b hb => ?_
    -- the next value that is kept comes from the next run
    rcases runs with - | ⟨next, runs⟩
    · cases hb
    obtain ⟨c, hc, hnext⟩ := keep.exists_choose (hne next (by simp))
    rw [List.filterMap_cons_some hnext] at hb
    obtain rfl := Option.some.inj hb
    exact (List.isChain_cons_cons.mp hmax).1 a ha c hc

section Equivalence

variable (hrepeats : Equivalence fun a b => repeats a b = true)
include hrepeats

/-- Every list falls into maximal runs. -/
theorem exists_maximalRuns (xs : List β) :
    ∃ runs, MaximalRuns (fun a b => repeats a b = true) xs runs := by
  have huniform : ∀ run ∈ xs.splitBy repeats, ∀ a ∈ run, ∀ b ∈ run, repeats a b = true := by
    intro run hrun
    have : Trans (repeats · · = true) (repeats · · = true) (repeats · · = true) :=
      ⟨hrepeats.trans⟩
    have : Std.Symm (repeats · · = true) := ⟨fun _ _ => hrepeats.symm⟩
    exact (List.isChain_of_mem_splitBy hrun).pairwise.forall_of_forall fun a _ => hrepeats.refl a
  refine ⟨xs.splitBy repeats, List.flatten_splitBy repeats xs,
    fun run => List.ne_nil_of_mem_splitBy, huniform, ?_⟩
  refine (List.isChain_getLast_head_splitBy repeats xs).imp_of_mem_imp ?_
  rintro left right hleft hright ⟨hl, hr, hdiffer⟩ a ha b hb hab
  -- values that are the same in the two runs would make the values where they meet the same
  have hla := huniform left hleft _ (List.getLast_mem hl) a ha
  have hbr := huniform right hright b hb _ (List.head_mem hr)
  exact Bool.false_ne_true (hdiffer.symm.trans (hrepeats.trans (hrepeats.trans hla hab) hbr))

omit hrepeats in
/-- The rest of a run adds no change to what was before it. -/
theorem changesAfter_run {before : β} {run rest : List β}
    (hrun : ∀ a ∈ before :: run, ∀ b ∈ before :: run, repeats a b = true)
    (hrest : ∀ next ∈ rest.head?, ∀ a ∈ before :: run, repeats next a = false) :
    changesAfter repeats before (run ++ rest) = runStarts repeats rest := by
  induction run generalizing before with
  | nil =>
    rcases rest with - | ⟨next, rest⟩
    · rfl
    · simp [changesAfter, runStarts, hrest next rfl before List.mem_cons_self]
  | cons x run ih =>
    have hx : repeats x before = true := hrun x (by simp) before (by simp)
    rw [List.cons_append, changesAfter, if_pos hx]
    exact ih (fun a ha b hb => hrun a (List.mem_cons_of_mem _ ha) b (List.mem_cons_of_mem _ hb))
      fun next hnext a ha => hrest next hnext a (List.mem_cons_of_mem _ ha)

omit hrepeats in
/-- Of a run its last value is kept. -/
theorem runEnds_run {run rest : List β} (hne : run ≠ [])
    (hrun : ∀ a ∈ run, ∀ b ∈ run, repeats a b = true)
    (hrest : ∀ next ∈ rest.head?, ∀ a ∈ run, repeats a next = false) :
    runEnds repeats (run ++ rest) = run.getLast hne :: runEnds repeats rest := by
  induction run with
  | nil => exact absurd rfl hne
  | cons x run ih =>
    rcases run with - | ⟨y, run⟩
    · rcases rest with - | ⟨next, rest⟩
      · rfl
      · simp [runEnds, hrest next rfl x List.mem_cons_self]
    · have hxy : repeats x y = true := hrun x (by simp) y (by simp)
      rw [List.cons_append, List.cons_append, runEnds, if_pos hxy, ← List.cons_append,
        ih (List.cons_ne_nil y run), List.getLast_cons (List.cons_ne_nil y run)]
      · exact fun a ha b hb => hrun a (List.mem_cons_of_mem x ha) b (List.mem_cons_of_mem x hb)
      · exact fun next hnext a ha => hrest next hnext a (List.mem_cons_of_mem x ha)

/-- Leaving out repeats among neighbours keeps one value of each run. -/
theorem MaximalRuns.withoutRepeats_eq (h : MaximalRuns (fun a b => repeats a b = true) xs runs)
    (keep : Keep) :
    withoutRepeats repeats keep .neighbours xs = runs.filterMap keep.choose := by
  obtain ⟨rfl, hne, huniform, hmax⟩ := h
  induction runs with
  | nil => cases keep <;> rfl
  | cons run runs ih =>
    have ih := ih (fun r hr => hne r (List.mem_cons_of_mem run hr))
      (fun r hr => huniform r (List.mem_cons_of_mem run hr)) hmax.tail
    have hrun := huniform run List.mem_cons_self
    -- what follows the run begins with a value of the next run
    have hrest : ∀ next ∈ runs.flatten.head?, ∀ a ∈ run, repeats a next = false := by
      rcases runs with - | ⟨right, runs⟩
      · exact fun next hnext => nomatch hnext
      obtain ⟨y, ys, rfl⟩ := List.exists_cons_of_ne_nil (hne right (by simp))
      rintro next hnext a ha
      obtain rfl := Option.some.inj hnext
      exact Bool.eq_false_iff.mpr ((List.isChain_cons_cons.mp hmax).1 a ha y List.mem_cons_self)
    have hrest' : ∀ next ∈ runs.flatten.head?, ∀ a ∈ run, repeats next a = false :=
      fun next hnext a ha => Bool.eq_false_iff.mpr fun hsame =>
        Bool.false_ne_true ((hrest next hnext a ha).symm.trans (hrepeats.symm hsame))
    obtain ⟨x, rest, rfl⟩ := List.exists_cons_of_ne_nil (hne run List.mem_cons_self)
    rw [List.flatten_cons]
    cases keep with
    | first =>
      have hchoose : Keep.first.choose (x :: rest) = some x := rfl
      rw [List.filterMap_cons_some hchoose, ← ih]
      exact congrArg (x :: ·) (changesAfter_run hrun hrest')
    | last =>
      have hchoose : Keep.last.choose (x :: rest) = some ((x :: rest).getLast (by simp)) :=
        List.getLast?_eq_some_getLast (List.cons_ne_nil x rest)
      rw [List.filterMap_cons_some hchoose, ← ih]
      exact runEnds_run (List.cons_ne_nil x rest) hrun hrest

end Equivalence

/-! ## Rows up to a time and from a time on -/

variable {p : β → Bool}

theorem filter_changesAfter {before : β} (h : xs.Pairwise fun a b => p b = true → p a = true) :
    (changesAfter repeats before xs).filter p = changesAfter repeats before (xs.filter p) := by
  induction xs generalizing before with
  | nil => rfl
  | cons x xs ih =>
    obtain ⟨hx, hxs⟩ := List.pairwise_cons.mp h
    by_cases hp : p x = true
    · rw [List.filter_cons_of_pos hp, changesAfter, changesAfter, ← ih hxs]
      split
      · rfl
      · rw [List.filter_cons_of_pos hp]
    · -- none of the values that follow satisfies `p` either
      have hnone : ∀ y ∈ x :: xs, ¬ p y = true :=
        List.forall_mem_cons.mpr ⟨hp, fun y hy hpy => hp (hx y hy hpy)⟩
      rw [List.filter_eq_nil_iff.mpr hnone, changesAfter, List.filter_eq_nil_iff]
      exact fun y hy => hnone y ((changesAfter_sublist repeats before (x :: xs)).mem hy)

/-- The first values of runs that come early are the first values of the early part's runs. -/
theorem filter_runStarts (h : xs.Pairwise fun a b => p b = true → p a = true) :
    (runStarts repeats xs).filter p = runStarts repeats (xs.filter p) := by
  rcases xs with - | ⟨x, xs⟩
  · rfl
  obtain ⟨hx, hxs⟩ := List.pairwise_cons.mp h
  by_cases hp : p x = true
  · rw [runStarts, List.filter_cons_of_pos hp, List.filter_cons_of_pos hp, runStarts,
      filter_changesAfter hxs]
  · have hnone : ∀ y ∈ x :: xs, ¬ p y = true :=
      List.forall_mem_cons.mpr ⟨hp, fun y hy hpy => hp (hx y hy hpy)⟩
    rw [List.filter_eq_nil_iff.mpr hnone, runStarts, List.filter_eq_nil_iff]
    exact fun y hy => hnone y ((withoutRepeats_sublist repeats .first .neighbours (x :: xs)).mem hy)

/-- The last values of runs that come late are the last values of the late part's runs. -/
theorem filter_runEnds (h : xs.Pairwise fun a b => p a = true → p b = true) :
    (runEnds repeats xs).filter p = runEnds repeats (xs.filter p) := by
  induction xs with
  | nil => rfl
  | cons x xs ih =>
    obtain ⟨hx, hxs⟩ := List.pairwise_cons.mp h
    by_cases hp : p x = true
    · -- all values satisfy `p`
      have hall : ∀ y ∈ x :: xs, p y = true :=
        List.forall_mem_cons.mpr ⟨hp, fun y hy => hx y hy hp⟩
      rw [List.filter_eq_self.mpr hall, List.filter_eq_self]
      exact fun y hy => hall y ((runEnds_sublist repeats (x :: xs)).mem hy)
    · rw [List.filter_cons_of_neg hp, ← ih hxs]
      rcases xs with - | ⟨y, xs⟩
      · simp [runEnds, hp]
      · rw [runEnds]
        split
        · rfl
        · rw [List.filter_cons_of_neg hp]

section Equivalence

variable (hrepeats : Equivalence fun a b => repeats a b = true)
include hrepeats

theorem getLast?_changesAfter {before kept : β} (hkept : repeats before kept = true) :
    Option.Rel (fun a b => repeats a b = true) (before :: xs).getLast?
      (kept :: changesAfter repeats before xs).getLast? := by
  induction xs generalizing before kept with
  | nil => exact .some hkept
  | cons x xs ih =>
    rw [List.getLast?_cons_cons, changesAfter]
    split <;> rename_i hx
    · exact ih (hrepeats.trans hx hkept)
    · rw [List.getLast?_cons_cons]
      exact ih (hrepeats.refl x)

/-- The last of the values that start a run is the same as the last value. -/
theorem getLast?_runStarts (xs : List β) :
    Option.Rel (fun a b => repeats a b = true) xs.getLast? (runStarts repeats xs).getLast? := by
  rcases xs with - | ⟨x, xs⟩
  · exact .none
  · exact getLast?_changesAfter hrepeats (hrepeats.refl x)

/-- The first of the values that end a run is the same as the first value. -/
theorem head?_runEnds (xs : List β) :
    Option.Rel (fun a b => repeats a b = true) xs.head? (runEnds repeats xs).head? := by
  fun_induction runEnds repeats xs with
  | case1 x y rest hxy ih =>
    rcases hends : (runEnds repeats (y :: rest)).head? with - | a <;> rw [hends] at ih
    · cases ih
    · obtain ⟨hya⟩ := ih
      exact .some (hrepeats.trans hxy hya)
  | case2 x y rest hxy ih => exact .some (hrepeats.refl x)
  | case3 xs hne =>
    rcases xs with - | ⟨x, xs⟩
    · exact .none
    · exact .some (hrepeats.refl x)

end Equivalence

end Lists

/-! ## The signal of stamped rows -/

section Rows

variable {α β : Type} [Scalar α]

/-- What a choice of rows is read by: first rows of runs tell what is in effect at a time, last rows
what is awaited. -/
def Keep.read : Keep → List (Stamped α β) → α → Option (Stamped α β)
  | first => inEffect
  | last => awaited

/-- Rows that are left of others when one row of each maximal run is kept: no two neighbours among
them are the same, and at every time they are read as the same row as before, or as none if there
was none. -/
structure Compressed (same : Stamped α β → Stamped α β → Prop) (keep : Keep)
    (rows out : List (Stamped α β)) : Prop where
  kept : ∃ runs, MaximalRuns same rows runs ∧ out = runs.filterMap keep.choose
  changes : out.IsChain fun a b => ¬ same a b
  signal : ∀ time, Option.Rel same (keep.read rows time) (keep.read out time)

/-- Leaving out repeats among neighbours compresses ordered rows. -/
theorem Ordered.compressed [LawfulScalar α] {rows : List (Stamped α β)}
    {repeats : Stamped α β → Stamped α β → Bool} (h : Ordered (Stamped.times rows))
    (hrepeats : Equivalence fun a b => repeats a b = true) (keep : Keep) :
    Compressed (fun a b => repeats a b = true) keep rows
      (withoutRepeats repeats keep .neighbours rows) := by
  obtain ⟨runs, hruns⟩ := exists_maximalRuns hrepeats rows
  have heq := hruns.withoutRepeats_eq hrepeats keep
  refine ⟨⟨runs, hruns, heq⟩, heq ▸ hruns.isChain_choose keep, ?_⟩
  intro time
  cases keep with
  | first =>
    show Option.Rel _ (inEffect rows time) (inEffect (runStarts repeats rows) time)
    rw [inEffect, inEffect, filter_runStarts (h.pairwise_le time)]
    exact getLast?_runStarts hrepeats _
  | last =>
    show Option.Rel _ (awaited rows time) (awaited (runEnds repeats rows) time)
    rw [awaited, awaited, filter_runEnds (h.pairwise_ge time)]
    exact head?_runEnds hrepeats _

end Rows

/-! ## Tables and series -/

section Data

variable {α : Type} [Scalar α]

/-- Two rows of a table have the same cells in some columns. -/
def Table.SameIn (t : Table α) (columns : List String) (a b : CellRow α) : Prop :=
  ∀ name ∈ columns, ∀ i ∈ t.position? name, Cell.same (cellAt a i) (cellAt b i) = true

/-- Two samples of a series have the same value. -/
def Series.Same (a b : Stamped α α) : Prop := Scalar.same a.value b.value = true

variable {t : Table α} {columns : List String} {positions : List Nat}

theorem rowRepeats_iff (h : t.positions columns = .ok positions) (a b : CellRow α) :
    rowRepeats true positions a b = true ↔ t.SameIn columns a b := by
  have hfound := mapM_eq_ok.mp h
  rw [rowRepeats, if_pos rfl, List.all_eq_true]
  constructor
  · intro hsame name hname i hi
    obtain ⟨j, hj, hposition⟩ := exists_of_mem_left hfound hname
    obtain rfl := Option.some.inj (hi.symm.trans (Table.position_eq_ok.mp hposition))
    exact hsame i hj
  · intro hsame i hi
    obtain ⟨name, hname, hposition⟩ := exists_of_mem_right hfound hi
    exact hsame name hname i (Table.position_eq_ok.mp hposition)

/-- All columns of a valid table are those that it has names for. -/
theorem Table.Valid.compared_eq (ht : t.Valid) (columns : Option (List String)) :
    t.compared columns = t.positions (columns.getD t.names) := by
  cases columns with
  | none => exact (positions_names ht.distinct).symm
  | some names => rfl

/-- Columns that are there are all found, as are all columns when none are named. -/
theorem Table.Valid.exists_compared (ht : t.Valid) {columns : Option (List String)}
    (h : ∀ names ∈ columns, ∀ name ∈ names, name ∈ t.names) :
    ∃ positions, t.positions (columns.getD t.names) = .ok positions ∧
      t.compared columns = .ok positions := by
  have hnames : ∀ name ∈ columns.getD t.names, name ∈ t.names := by
    cases columns with
    | none => exact fun _ hname => hname
    | some names => exact h names rfl
  obtain ⟨positions, hpositions⟩ := exists_positions hnames
  exact ⟨positions, hpositions, (ht.compared_eq columns).trans hpositions⟩

/-- Leaving out repeats among neighbours of a table, in columns that are there. -/
theorem Table.withoutRepeats_neighbours (ht : t.Valid) (keep : Keep)
    {columns : Option (List String)}
    (h : t.positions (columns.getD t.names) = .ok positions) :
    t.withoutRepeats keep .neighbours columns true
      = .ok { t with
          rows := StepSignal.withoutRepeats (rowRepeats true positions) keep .neighbours
            t.rows } := by
  rw [withoutRepeats_eq t keep columns (.inl rfl), ht.compared_eq, h, ok_map]

variable [LawfulScalar α]

theorem Series.same_equivalence : Equivalence (Same (α := α)) := by
  have hsame : Same (α := α) = fun a b => exactly a.value = exactly b.value :=
    funext₂ fun a b => propext (same_iff a.value b.value)
  rw [hsame]
  exact ⟨fun _ => rfl, Eq.symm, Eq.trans⟩

theorem Table.sameIn_equivalence (t : Table α) (columns : List String) :
    Equivalence (t.SameIn columns) := by
  constructor
  · intro a name _ i _
    exact (Cell.same_iff _ _).mpr rfl
  · intro a b hab name hname i hi
    have hab := (Cell.same_iff _ _).mp (hab name hname i hi)
    exact (Cell.same_iff _ _).mpr hab.symm
  · intro a b c hab hbc name hname i hi
    have hab := (Cell.same_iff _ _).mp (hab name hname i hi)
    have hbc := (Cell.same_iff _ _).mp (hbc name hname i hi)
    exact (Cell.same_iff _ _).mpr (hab.trans hbc)

end Data

/-- **Run compression keeps the signal.** A table can be compressed in any columns that it has, or
in all of them, and a series in its values: one row of each maximal run is kept as it is, the first
or the last, and what is in effect or awaited at a time stays the same. -/
theorem withoutRepeats_keeps_signal :
    (∀ (t : Table Float) (keep : Keep) (columns : Option (List String)), t.Valid →
      (∀ names ∈ columns, ∀ name ∈ names, name ∈ t.names) →
      ∃ out, t.withoutRepeats keep .neighbours columns true = .ok out ∧ out.names = t.names ∧
        Compressed (t.SameIn (columns.getD t.names)) keep t.rows out.rows) ∧
    (∀ (s : Series Float) (keep : Keep), s.Valid →
      (s.withoutRepeats keep .neighbours).name = s.name ∧
        Compressed Series.Same keep s.samples (s.withoutRepeats keep .neighbours).samples) := by
  constructor
  · intro t keep columns ht hcolumns
    have hnames : ∀ name ∈ columns.getD t.names, name ∈ t.names := by
      cases columns with
      | none => exact fun _ hname => hname
      | some names => exact hcolumns names rfl
    obtain ⟨positions, hpositions⟩ := Table.exists_positions hnames
    have hsame : (fun a b => rowRepeats true positions a b = true)
        = t.SameIn (columns.getD t.names) :=
      funext₂ fun a b => propext (rowRepeats_iff hpositions a b)
    have hrepeats := hsame ▸ t.sameIn_equivalence (columns.getD t.names)
    refine ⟨_, Table.withoutRepeats_neighbours ht keep hpositions, rfl, ?_⟩
    exact hsame ▸ Ordered.compressed ht.ordered hrepeats keep
  · intro s keep hs
    exact ⟨rfl, Ordered.compressed hs Series.same_equivalence keep⟩

/-- Runs of the two zeros and of missing numbers, in one column of a table and in a series. -/
theorem withoutRepeats_keeps_signal_of_zeros :
    let t : Table Float := ⟨["v", "w"], [⟨0, [.num 0, .int 1]⟩, ⟨1, [.num (-0.0), .int 2]⟩,
      ⟨2, [.num (0 / 0), .int 2]⟩, ⟨4, [.num (0 / 0), .int 3]⟩]⟩
    let s : Series Float := ⟨"v", [⟨0, 0⟩, ⟨1, -0.0⟩, ⟨2, 1⟩]⟩
    t.Valid ∧ s.Valid ∧ (∀ name ∈ ["v"], name ∈ t.names) ∧
      (∃ out, t.withoutRepeats .last .neighbours (some ["v"]) true = .ok out ∧
        out.names = t.names ∧ Compressed (t.SameIn ["v"]) .last t.rows out.rows) ∧
      Compressed Series.Same .first s.samples (s.withoutRepeats .first .neighbours).samples := by
  intro t s
  have hbuild : Table.ofColumns [0, 1, 2, 4]
      [⟨"v", [.num 0, .num (-0.0), .num (0 / 0), .num (0 / 0)]⟩,
        ⟨"w", [.int 1, .int 2, .int 2, .int 3]⟩] = .ok t := by decide +kernel
  have ht : t.Valid := Table.valid_ofColumns hbuild
  have hs : s.Valid := checkIndex_eq_ok.mp (by decide)
  have hnames : ∀ name ∈ ["v"], name ∈ t.names := by decide
  have hcolumns : ∀ names ∈ some ["v"], ∀ name ∈ names, name ∈ t.names := by
    rintro _ ⟨⟩
    exact hnames
  exact ⟨ht, hs, hnames, withoutRepeats_keeps_signal.1 t .last (some ["v"]) ht hcolumns,
    (withoutRepeats_keeps_signal.2 s .first hs).2⟩

end StepSignal
