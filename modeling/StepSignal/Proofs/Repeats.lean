import Mathlib.Data.List.Chain
import Mathlib.Data.List.Induction
import StepSignal.Proofs.Outcome
import StepSignal.Repeats

/-!
# What leaving out repeats keeps

Every way of leaving out repeats keeps some of the values, in their order: those that repeat none of
the values that they are compared with, which are `Survivors`. Keeping the first of repeated values
is keeping the last of them in the list read backwards, so that most is proved for the last ones.
Keeping each value once leaves values that do not repeat each other, one for every value that there
was.
-/

namespace StepSignal

variable {β : Type} (repeats : β → β → Bool)

/-! ## Order -/

theorem changesAfter_sublist (before : β) (xs : List β) :
    (changesAfter repeats before xs).Sublist xs := by
  induction xs generalizing before with
  | nil => exact .slnil
  | cons x xs ih =>
    rw [changesAfter]
    split
    · exact (ih x).cons x
    · exact (ih x).cons_cons x

theorem runEnds_sublist (xs : List β) : (runEnds repeats xs).Sublist xs := by
  fun_induction runEnds repeats xs with
  | case1 x y rest _ ih => exact ih.cons x
  | case2 x y rest _ ih => exact ih.cons_cons x
  | case3 xs => exact .refl xs

theorem lastOccurrences_sublist (xs : List β) : (lastOccurrences repeats xs).Sublist xs := by
  induction xs with
  | nil => exact .slnil
  | cons x xs ih =>
    rw [lastOccurrences]
    split
    · exact ih.cons x
    · exact ih.cons_cons x

theorem firstOccurrences_sublist (xs : List β) : (firstOccurrences repeats xs).Sublist xs := by
  have h := (lastOccurrences_sublist repeats xs.reverse).reverse
  rwa [List.reverse_reverse] at h

/-- What is left is some of the values, in their order. -/
theorem withoutRepeats_sublist (keep : Keep) (scope : RepeatScope) (xs : List β) :
    (withoutRepeats repeats keep scope xs).Sublist xs := by
  cases scope <;> cases keep
  · rcases xs with - | ⟨x, xs⟩
    · exact .slnil
    · exact (changesAfter_sublist repeats x xs).cons_cons x
  · exact runEnds_sublist repeats xs
  · exact firstOccurrences_sublist repeats xs
  · exact lastOccurrences_sublist repeats xs

/-! ## Each value once -/

theorem lastOccurrences_pairwise (xs : List β) :
    (lastOccurrences repeats xs).Pairwise fun a b => repeats a b = false := by
  induction xs with
  | nil => exact .nil
  | cons x xs ih =>
    rw [lastOccurrences]
    split <;> rename_i h
    · exact ih
    · refine List.pairwise_cons.mpr ⟨fun y hy => ?_, ih⟩
      have hy := (lastOccurrences_sublist repeats xs).mem hy
      simp only [List.any_eq_true, not_exists, not_and, Bool.not_eq_true] at h
      exact h y hy

/-- The values that are kept do not repeat each other. -/
theorem firstOccurrences_pairwise (xs : List β) :
    (firstOccurrences repeats xs).Pairwise fun a b => repeats b a = false := by
  rw [firstOccurrences, List.pairwise_reverse]
  exact lastOccurrences_pairwise repeats xs.reverse

variable {repeats}

theorem exists_lastOccurrence (hrefl : ∀ x, repeats x x = true)
    (htrans : ∀ x y z, repeats x y = true → repeats y z = true → repeats x z = true) {xs : List β}
    {x : β} (hx : x ∈ xs) : ∃ y ∈ lastOccurrences repeats xs, repeats x y = true := by
  induction xs generalizing x with
  | nil => cases hx
  | cons z xs ih =>
    rw [lastOccurrences]
    rcases List.mem_cons.mp hx with rfl | hx
    -- a value that is left out repeats a later one, which repeats one that is kept
    · split <;> rename_i h
      · obtain ⟨w, hw, hxw⟩ := List.any_eq_true.mp h
        obtain ⟨y, hy, hwy⟩ := ih hw
        exact ⟨y, hy, htrans _ _ _ hxw hwy⟩
      · exact ⟨x, List.mem_cons_self, hrefl x⟩
    · obtain ⟨y, hy, hxy⟩ := ih hx
      split
      · exact ⟨y, hy, hxy⟩
      · exact ⟨y, List.mem_cons_of_mem z hy, hxy⟩

/-- Every value repeats one that is kept. -/
theorem exists_firstOccurrence (hrefl : ∀ x, repeats x x = true)
    (htrans : ∀ x y z, repeats x y = true → repeats y z = true → repeats x z = true) {xs : List β}
    {x : β} (hx : x ∈ xs) : ∃ y ∈ firstOccurrences repeats xs, repeats x y = true := by
  obtain ⟨y, hy, hxy⟩ := exists_lastOccurrence hrefl htrans (List.mem_reverse.mpr hx)
  exact ⟨y, List.mem_reverse.mpr hy, hxy⟩

variable {γ : Type} {xs : List β} {a : β}

/-! ## The two directions -/

theorem changesAfter_concat (before : β) (ys : List β) (x y : β) :
    changesAfter repeats before (ys ++ [x, y])
      = changesAfter repeats before (ys ++ [x]) ++ if repeats y x then [] else [y] := by
  induction ys generalizing before with
  | nil =>
    simp only [List.nil_append, changesAfter]
    split <;> rfl
  | cons z ys ih =>
    simp only [List.cons_append, changesAfter, ih]
    split <;> rfl

theorem runStarts_concat (ys : List β) (x y : β) :
    runStarts repeats (ys ++ [x, y])
      = runStarts repeats (ys ++ [x]) ++ if repeats y x then [] else [y] := by
  rcases ys with - | ⟨z, ys⟩
  · simp only [List.nil_append, runStarts, changesAfter]
    split <;> rfl
  · exact congrArg (z :: ·) (changesAfter_concat z ys x y)

/-- Seen from behind, the value that starts a run ends it. -/
theorem reverse_runStarts (xs : List β) :
    (runStarts repeats xs).reverse = runEnds repeats xs.reverse := by
  induction xs using List.reverseRecOn with
  | nil => rfl
  | append_singleton ys y ih =>
    rcases ys.eq_nil_or_concat' with rfl | ⟨ys, x, rfl⟩
    · rfl
    · rw [List.append_assoc, List.singleton_append, runStarts_concat, List.reverse_append, ih]
      simp only [List.reverse_append, List.reverse_cons, List.reverse_nil, List.nil_append,
        List.cons_append, runEnds]
      split <;> rfl

/-- Keeping the first of repeated values is keeping the last of them in the list read backwards. -/
theorem withoutRepeats_first (scope : RepeatScope) (xs : List β) :
    withoutRepeats repeats .first scope xs
      = (withoutRepeats repeats .last scope xs.reverse).reverse := by
  cases scope with
  | neighbours => exact List.reverse_eq_iff.mp (reverse_runStarts xs)
  | anywhere => rfl

/-! ## Renamed values -/

theorem runEnds_map (f : γ → β) (xs : List γ) :
    runEnds repeats (xs.map f) = (runEnds (fun a b => repeats (f a) (f b)) xs).map f := by
  fun_induction runEnds (fun a b => repeats (f a) (f b)) xs with
  | case1 x y rest hxy ih => simpa [runEnds, hxy] using ih
  | case2 x y rest hxy ih => simpa [runEnds, hxy] using ih
  | case3 xs hne =>
    rcases xs with - | ⟨x, - | ⟨y, rest⟩⟩
    · rfl
    · rfl
    · exact absurd rfl (hne x y rest)

theorem lastOccurrences_map (f : γ → β) (xs : List γ) :
    lastOccurrences repeats (xs.map f)
      = (lastOccurrences (fun a b => repeats (f a) (f b)) xs).map f := by
  induction xs with
  | nil => rfl
  | cons x xs ih =>
    simp only [List.map_cons, lastOccurrences, List.any_map, ih, Function.comp_def]
    split <;> rfl

/-- Values are left out by what they are compared by. -/
theorem withoutRepeats_map (f : γ → β) (keep : Keep) (scope : RepeatScope) (xs : List γ) :
    withoutRepeats repeats keep scope (xs.map f)
      = (withoutRepeats (fun a b => repeats (f a) (f b)) keep scope xs).map f := by
  have hlast : ∀ ys : List γ, withoutRepeats repeats .last scope (ys.map f)
      = (withoutRepeats (fun a b => repeats (f a) (f b)) .last scope ys).map f := by
    cases scope with
    | neighbours => exact runEnds_map f
    | anywhere => exact lastOccurrences_map f
  cases keep with
  | first =>
    rw [withoutRepeats_first, withoutRepeats_first, ← List.map_reverse, hlast, List.map_reverse]
  | last => exact hlast xs

/-! ## Which values are kept -/

theorem exists_suffix_cons {P : List β → Prop} {x : β} :
    (∃ after, a :: after <:+ x :: xs ∧ P after) ↔
      (a = x ∧ P xs) ∨ ∃ after, a :: after <:+ xs ∧ P after := by
  simp only [List.suffix_cons_iff, List.cons.injEq, or_and_right, exists_or, and_assoc,
    exists_and_left, exists_eq_left]

theorem mem_runEnds : a ∈ runEnds repeats xs ↔
    ∃ after, a :: after <:+ xs ∧ ∀ b ∈ after.take 1, repeats a b = false := by
  fun_induction runEnds repeats xs with
  | case1 x y rest hxy ih =>
    rw [ih, exists_suffix_cons (x := x)]
    refine (or_iff_right ?_).symm
    rintro ⟨rfl, hdiffer⟩
    exact Bool.false_ne_true ((hdiffer y (by simp)).symm.trans hxy)
  | case2 x y rest hxy ih =>
    rw [List.mem_cons, ih, exists_suffix_cons (x := x)]
    refine or_congr_left (and_iff_left_of_imp ?_).symm
    rintro rfl
    simpa using hxy
  | case3 xs hne =>
    rcases xs with - | ⟨x, - | ⟨y, rest⟩⟩
    · simp
    · rw [exists_suffix_cons]
      simp
    · exact absurd rfl (hne x y rest)

theorem mem_lastOccurrences : a ∈ lastOccurrences repeats xs ↔
    ∃ after, a :: after <:+ xs ∧ ∀ b ∈ after, repeats a b = false := by
  induction xs with
  | nil => simp [lastOccurrences]
  | cons x xs ih =>
    rw [exists_suffix_cons, ← ih, lastOccurrences]
    split <;> rename_i h
    · refine (or_iff_right ?_).symm
      rintro ⟨rfl, hdiffer⟩
      obtain ⟨b, hb, hab⟩ := List.any_eq_true.mp h
      exact Bool.false_ne_true ((hdiffer b hb).symm.trans hab)
    · rw [List.mem_cons]
      refine or_congr_left (and_iff_left_of_imp ?_).symm
      rintro rfl
      simpa using h

/-- The values that could stand for the one between `before` and `after`, nearest first: what comes
before it if the first of equal values is kept, and what comes after it if the last is. -/
def Keep.rivals : Keep → List β → List β → List β
  | first, before, _ => before.reverse
  | last, _, after => after

/-- How far a value is compared: with the nearest of others, or with all of them. -/
def RepeatScope.reach : RepeatScope → List β → List β
  | neighbours => List.take 1
  | anywhere => id

/-- Values that are left of others: those that repeat none of the values that they are compared
with, in their order. -/
structure Survivors (same : β → β → Prop) (keep : Keep) (scope : RepeatScope)
    (xs out : List β) : Prop where
  sublist : out.Sublist xs
  mem_iff : ∀ a, a ∈ out ↔ ∃ before after, xs = before ++ a :: after ∧
    ∀ b ∈ scope.reach (keep.rivals before after), ¬ same a b

/-- What is left when repeats are left out, whatever it is that repeats. -/
theorem survivors_withoutRepeats (keep : Keep) (scope : RepeatScope) (xs : List β) :
    Survivors (fun a b => repeats a b = true) keep scope xs
      (withoutRepeats repeats keep scope xs) := by
  have hlast : ∀ (a : β) (ys : List β), a ∈ withoutRepeats repeats .last scope ys ↔
      ∃ after, a :: after <:+ ys ∧ ∀ b ∈ scope.reach after, repeats a b = false := by
    intro a ys
    cases scope with
    | neighbours => exact mem_runEnds
    | anywhere => exact mem_lastOccurrences
  refine ⟨withoutRepeats_sublist repeats keep scope xs, fun a => ?_⟩
  simp only [Bool.not_eq_true]
  cases keep with
  | first =>
    rw [withoutRepeats_first, List.mem_reverse, hlast]
    constructor
    · rintro ⟨after, ⟨before, hsplit⟩, hdiffer⟩
      refine ⟨after.reverse, before.reverse, ?_, by simpa [Keep.rivals] using hdiffer⟩
      simpa using (congrArg List.reverse hsplit).symm
    · rintro ⟨before, after, rfl, hdiffer⟩
      exact ⟨before.reverse, ⟨after.reverse, by simp⟩, hdiffer⟩
  | last =>
    rw [hlast]
    constructor
    · rintro ⟨after, ⟨before, hsplit⟩, hdiffer⟩
      exact ⟨before, after, hsplit.symm, hdiffer⟩
    · rintro ⟨before, after, rfl, hdiffer⟩
      exact ⟨after, List.suffix_append _ _, hdiffer⟩

/-! ## When there is nothing to leave out -/

theorem runEnds_eq_self_iff :
    runEnds repeats xs = xs ↔ xs.IsChain fun a b => repeats a b = false := by
  fun_induction runEnds repeats xs with
  | case1 x y rest hxy ih =>
    refine iff_of_false (fun heq => ?_) fun h => ?_
    · -- what is left of a tail is not longer than it
      have hlen := (runEnds_sublist repeats (y :: rest)).length_le
      rw [heq, List.length_cons] at hlen
      omega
    · exact Bool.false_ne_true ((List.isChain_cons_cons.mp h).1.symm.trans hxy)
  | case2 x y rest hxy ih =>
    rw [List.cons_inj_right, ih, List.isChain_cons_cons, and_iff_right (by simpa using hxy)]
  | case3 xs hne =>
    rcases xs with - | ⟨x, - | ⟨y, rest⟩⟩
    · exact iff_of_true rfl .nil
    · exact iff_of_true rfl (.singleton x)
    · exact absurd rfl (hne x y rest)

/-- Among neighbours nothing is left out exactly when no two of them repeat each other. -/
theorem withoutRepeats_neighbours_eq_self_iff (hsymm : ∀ a b, repeats a b = repeats b a)
    (keep : Keep) : withoutRepeats repeats keep .neighbours xs = xs ↔
      xs.IsChain fun a b => repeats a b = false := by
  cases keep with
  | first =>
    rw [withoutRepeats_first, List.reverse_eq_iff]
    refine runEnds_eq_self_iff.trans ?_
    rw [List.isChain_reverse]
    exact List.IsChain.iff fun a b => by rw [hsymm b a]
  | last => exact runEnds_eq_self_iff

/-! ## Tables -/

namespace Table

variable {α : Type}

/-- The positions of the columns that rows are compared in: those named, or all of them. -/
def compared (t : Table α) : Option (List String) → Outcome α (List Nat)
  | some names => t.positions names
  | none => .ok (List.range t.names.length)

theorem compared_rows (t : Table α) (rows : List (Stamped α (List (Cell α))))
    (columns : Option (List String)) :
    ({ t with rows } : Table α).compared columns = t.compared columns := by
  cases columns <;> rfl

/-- What is left of a table when repeats are left out: the columns are looked up, and then the rows
are compared in them. Repeats in any column can only be left out among neighbours. -/
theorem withoutRepeats_eq [Scalar α] (t : Table α) (keep : Keep) {scope : RepeatScope}
    (columns : Option (List String)) {allColumns : Bool}
    (h : scope = .neighbours ∨ allColumns = true) :
    t.withoutRepeats keep scope columns allColumns = (fun positions => { t with
      rows := StepSignal.withoutRepeats (rowRepeats allColumns positions) keep scope t.rows }) <$>
        t.compared columns := by
  have haccepted : ¬ (decide (scope = .anywhere) && !allColumns) = true := by
    rcases h with rfl | rfl <;> simp
  unfold Table.withoutRepeats
  rw [if_neg haccepted]
  cases columns <;> rfl

end Table

end StepSignal
