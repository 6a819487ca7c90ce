import StepSignal.Proofs.Runs

/-!
# One row for each value

Leaving out repeats anywhere keeps one of all rows that are the same, the first or the last of them.
Which rows are left is decided by the values alone, so it makes no difference if the runs among the
rows were compressed before, and there are no runs to compress after it.
-/

namespace StepSignal

open Scalar

section Lists

variable {β : Type}

/-- Rows that are left of others when one of all that are the same is kept, the first or the last:
each of them has no other one like it before it, or after it, no two of them are the same, and every
row that there was is the same as one of them. -/
structure Representatives (same : β → β → Prop) (keep : Keep) (rows out : List β) : Prop where
  survivors : Survivors same keep .anywhere rows out
  distinct : out.Pairwise fun a b => ¬ same a b
  complete : ∀ row ∈ rows, ∃ kept ∈ out, same row kept

variable {repeats : β → β → Bool} (hrepeats : Equivalence fun a b => repeats a b = true)
include hrepeats

theorem repeats_symm (a b : β) : repeats a b = repeats b a :=
  Bool.eq_iff_iff.mpr ⟨hrepeats.symm, hrepeats.symm⟩

/-- Leaving out repeats anywhere keeps one row for each value. -/
theorem representatives_withoutRepeats (keep : Keep) (xs : List β) :
    Representatives (fun a b => repeats a b = true) keep xs
      (withoutRepeats repeats keep .anywhere xs) := by
  refine ⟨survivors_withoutRepeats keep .anywhere xs, ?_, fun x hx => ?_⟩
  · simp only [Bool.not_eq_true]
    cases keep with
    | first =>
      refine (firstOccurrences_pairwise repeats xs).imp fun {a b} hba => ?_
      rwa [repeats_symm hrepeats]
    | last => exact lastOccurrences_pairwise repeats xs
  · have htrans : ∀ x y z, repeats x y = true → repeats y z = true → repeats x z = true :=
      fun _ _ _ => hrepeats.trans
    cases keep with
    | first => exact exists_firstOccurrence hrepeats.refl htrans hx
    | last => exact exists_lastOccurrence hrepeats.refl htrans hx

/-! ## Runs and occurrences -/

/-- Compressing runs leaves a value that is repeated wherever there was one. -/
theorem any_runEnds (x : β) (xs : List β) :
    (runEnds repeats xs).any (repeats x) = xs.any (repeats x) := by
  fun_induction runEnds repeats xs with
  | case1 y z rest hyz ih =>
    have hyz : repeats x y = true → repeats x z = true := (hrepeats.trans · hyz)
    rw [ih, List.any_cons, List.any_cons, List.any_cons]
    cases hy : repeats x y
    · rfl
    · rw [hyz hy]
      rfl
  | case2 y z rest hyz ih => rw [List.any_cons, ih, ← List.any_cons]
  | case3 xs hne => rfl

theorem lastOccurrences_runEnds (xs : List β) :
    lastOccurrences repeats (runEnds repeats xs) = lastOccurrences repeats xs := by
  fun_induction runEnds repeats xs with
  | case1 x y rest hxy ih =>
    have hany : (y :: rest).any (repeats x) = true := by simp [hxy]
    conv_rhs => rw [lastOccurrences, if_pos hany]
    exact ih
  | case2 x y rest hxy ih =>
    conv_rhs => rw [lastOccurrences]
    rw [lastOccurrences, any_runEnds hrepeats, ih]
  | case3 xs hne => rfl

/-- Compressing runs first makes no difference to what is left of all rows. -/
theorem withoutRepeats_anywhere_neighbours (keep : Keep) (xs : List β) :
    withoutRepeats repeats keep .anywhere (withoutRepeats repeats keep .neighbours xs)
      = withoutRepeats repeats keep .anywhere xs := by
  cases keep with
  | first =>
    rw [withoutRepeats_first, withoutRepeats_first .neighbours, List.reverse_reverse,
      withoutRepeats_first .anywhere xs]
    exact congrArg List.reverse (lastOccurrences_runEnds hrepeats xs.reverse)
  | last => exact lastOccurrences_runEnds hrepeats xs

/-- Rows that are all different have no runs. -/
theorem withoutRepeats_neighbours_anywhere (keep : Keep) (xs : List β) :
    withoutRepeats repeats keep .neighbours (withoutRepeats repeats keep .anywhere xs)
      = withoutRepeats repeats keep .anywhere xs := by
  rw [withoutRepeats_neighbours_eq_self_iff (repeats_symm hrepeats)]
  refine (representatives_withoutRepeats hrepeats keep xs).distinct.isChain.imp fun a b hab => ?_
  simpa using hab

end Lists

/-! ## Tables and series -/

section Data

variable {α : Type} [Scalar α]

/-- A list law of leaving out repeats twice holds of the rows of a table, and it makes no difference
to it if a column is not there. -/
theorem Table.withoutRepeats_bind {keep : Keep} {earlier later : RepeatScope}
    (h : ∀ positions (rows : List (CellRow α)),
      StepSignal.withoutRepeats (rowRepeats true positions) keep later
          (StepSignal.withoutRepeats (rowRepeats true positions) keep earlier rows)
        = StepSignal.withoutRepeats (rowRepeats true positions) keep .anywhere rows)
    (t : Table α) (columns : Option (List String)) :
    (t.withoutRepeats keep earlier columns true >>= (·.withoutRepeats keep later columns true))
      = t.withoutRepeats keep .anywhere columns true := by
  rw [withoutRepeats_eq t keep columns (.inr rfl), withoutRepeats_eq t keep columns (.inr rfl)]
  rcases hpositions : t.compared columns with fault | positions
  · rfl
  · rw [ok_map, ok_bind, withoutRepeats_eq _ keep columns (.inr rfl), compared_rows, hpositions,
      ok_map, h, ok_map]

variable [LawfulScalar α]

/-- Having the same cells at some positions is an equivalence of rows. -/
theorem rowRepeats_equivalence (positions : List Nat) :
    Equivalence fun a b : CellRow α => rowRepeats true positions a b = true := by
  have heq : (fun a b : CellRow α => rowRepeats true positions a b = true)
      = fun a b => ∀ i ∈ positions, (cellAt a i).exactly = (cellAt b i).exactly := by
    funext a b
    simp only [rowRepeats, if_true, List.all_eq_true, Cell.same_iff]
  rw [heq]
  exact ⟨fun _ _ _ => rfl, fun hab i hi => (hab i hi).symm,
    fun hab hbc i hi => (hab i hi).trans (hbc i hi)⟩

/-- A table keeps one row for each key in the columns that it is compared in. -/
theorem Table.representatives {t : Table α} (keep : Keep)
    {columns : Option (List String)} {positions : List Nat}
    (h : t.positions (columns.getD t.names) = .ok positions) :
    Representatives (t.SameIn (columns.getD t.names)) keep t.rows
      (StepSignal.withoutRepeats (rowRepeats true positions) keep .anywhere t.rows) := by
  have hsame : (fun a b => rowRepeats true positions a b = true)
      = t.SameIn (columns.getD t.names) := funext₂ fun a b => propext (rowRepeats_iff h a b)
  exact hsame ▸ representatives_withoutRepeats (rowRepeats_equivalence positions) keep t.rows

end Data

variable {α : Type} [Scalar α] [LawfulScalar α]

/-- **One row for each value.** A table can be rid of repeats anywhere in any columns that it has,
or in all of them, and a series in its values: of all rows that are the same one is kept as it is,
the first or the last, in the order of the rows. Compressing the runs before, by the same choice and in
the same columns, makes no difference, and compressing them after it changes nothing. That holds of
any columns, as both requests are refused alike when one is not there. -/
theorem withoutRepeats_keeps_occurrence (keep : Keep) :
    (∀ (t : Table α) (columns : Option (List String)), t.Valid →
      (∀ names ∈ columns, ∀ name ∈ names, name ∈ t.names) →
      ∃ out, t.withoutRepeats keep .anywhere columns true = .ok out ∧ out.names = t.names ∧
        Representatives (t.SameIn (columns.getD t.names)) keep t.rows out.rows) ∧
    (∀ s : Series α, (s.withoutRepeats keep .anywhere).name = s.name ∧
      Representatives Series.Same keep s.samples (s.withoutRepeats keep .anywhere).samples) ∧
    (∀ (t : Table α) (columns : Option (List String)),
      (t.withoutRepeats keep .neighbours columns true
          >>= (·.withoutRepeats keep .anywhere columns true))
        = t.withoutRepeats keep .anywhere columns true ∧
      (t.withoutRepeats keep .anywhere columns true
          >>= (·.withoutRepeats keep .neighbours columns true))
        = t.withoutRepeats keep .anywhere columns true) ∧
    ∀ s : Series α,
      (s.withoutRepeats keep .neighbours).withoutRepeats keep .anywhere
        = s.withoutRepeats keep .anywhere ∧
      (s.withoutRepeats keep .anywhere).withoutRepeats keep .neighbours
        = s.withoutRepeats keep .anywhere := by
  refine ⟨fun t columns ht hcolumns => ?_, fun s => ⟨rfl, ?_⟩, fun t columns => ⟨?_, ?_⟩,
    fun s => ⟨?_, ?_⟩⟩
  · obtain ⟨positions, hpositions, hcompared⟩ := ht.exists_compared hcolumns
    have hout : t.withoutRepeats keep .anywhere columns true = _ :=
      t.withoutRepeats_eq keep columns (.inr rfl)
    rw [hcompared, ok_map] at hout
    exact ⟨_, hout, rfl, Table.representatives keep hpositions⟩
  · exact representatives_withoutRepeats Series.same_equivalence keep s.samples
  · exact Table.withoutRepeats_bind (fun positions =>
      withoutRepeats_anywhere_neighbours (rowRepeats_equivalence positions) keep) t columns
  · exact Table.withoutRepeats_bind (fun positions =>
      withoutRepeats_neighbours_anywhere (rowRepeats_equivalence positions) keep) t columns
  · exact congrArg (Series.mk s.name)
      (withoutRepeats_anywhere_neighbours Series.same_equivalence keep s.samples)
  · exact congrArg (Series.mk s.name)
      (withoutRepeats_neighbours_anywhere Series.same_equivalence keep s.samples)

/-- The two zeros and two missing numbers in turn: the last of each is kept. -/
theorem withoutRepeats_keeps_occurrence_of_zeros :
    let t : Table Float := ⟨["v", "w"], [⟨0, [.num 0, .int 1]⟩, ⟨1, [.num (0 / 0), .int 2]⟩,
      ⟨2, [.num (-0.0), .int 2]⟩, ⟨4, [.num (0 / 0), .int 3]⟩]⟩
    let out : Table Float := ⟨["v", "w"], [⟨2, [.num (-0.0), .int 2]⟩, ⟨4, [.num (0 / 0), .int 3]⟩]⟩
    t.Valid ∧ (∀ name ∈ ["v"], name ∈ t.names) ∧
      t.withoutRepeats .last .anywhere (some ["v"]) true = .ok out ∧
      Representatives (t.SameIn ["v"]) .last t.rows out.rows ∧
      out.withoutRepeats .last .neighbours (some ["v"]) true = .ok out := by
  intro t out
  have hordered : Ordered [(0 : Float), 1, 2, 4] := checkIndex_eq_ok.mp (by decide)
  have ht : t.Valid := ⟨hordered, by decide, by decide⟩
  have hnames : ∀ name ∈ ["v"], name ∈ t.names := by decide
  have hcolumns : ∀ names ∈ some ["v"], ∀ name ∈ names, name ∈ t.names := by
    rintro _ ⟨⟩
    exact hnames
  have hout : t.withoutRepeats .last .anywhere (some ["v"]) true = .ok out := by decide +kernel
  obtain ⟨htables, -, hlaws, -⟩ := withoutRepeats_keeps_occurrence (α := Float) .last
  obtain ⟨out', hout', -, hkept⟩ := htables t (some ["v"]) ht hcolumns
  obtain rfl := Except.ok.inj (hout.symm.trans hout')
  have hagain := (hlaws t (some ["v"])).2
  rw [hout, ok_bind] at hagain
  exact ⟨ht, hnames, hout, hkept, hagain⟩

end StepSignal
