import StepSignal.Proofs.Occurrences

/-!
# Repeats in any column

A row can be left out as soon as it repeats its neighbour in some column. Every row is compared with
the one right beside it in the table as it was, also when that one is left out. So two rows that
come to stand beside each other only because others between them went may still have a cell in
common, but then the cell has changed in between.
-/

namespace StepSignal

open Scalar

section Lists

variable {β : Type} {same : β → β → Prop} {keep : Keep} {scope : RepeatScope} {xs out : List β}
  {a b : β}

/-- Where a value that is left stands among values that all differ, it is the same as none of those
that it is compared with. -/
theorem Survivors.not_same (h : Survivors same keep scope xs out) (hxs : xs.Nodup)
    {before after : List β} (hsplit : xs = before ++ a :: after) (ha : a ∈ out) :
    ∀ b ∈ scope.reach (keep.rivals before after), ¬ same a b := by
  obtain ⟨before', after', hsplit', hdiffer⟩ := (h.mem_iff a).mp ha
  subst hsplit
  have hnodup := List.nodup_middle.mp hxs
  rw [List.nodup_cons, List.mem_append, not_or] at hnodup
  -- there is only one place where the value stands
  rw [List.append_cons_inj_of_notMem hnodup.1.1 hnodup.1.2] at hsplit'
  obtain ⟨rfl, -, rfl⟩ := hsplit'
  exact hdiffer

/-- Two values that come to stand beside each other have only values between them that went. -/
theorem exists_between (hs : out.Sublist xs) (hxs : xs.Nodup) (hab : [a, b] <:+: out) :
    ∃ before between after, xs = before ++ a :: (between ++ b :: after) ∧
      ∀ c ∈ between, c ∉ out := by
  obtain ⟨left, right, rfl⟩ := hab
  rw [List.append_assoc, List.append_sublist_iff] at hs
  obtain ⟨before, rest, rfl, hleft, hrest⟩ := hs
  obtain ⟨first, rest, rfl, ha, hrest⟩ := List.cons_sublist_iff.mp hrest
  obtain ⟨second, rest, rfl, hb, hright⟩ := List.cons_sublist_iff.mp hrest
  obtain ⟨p, q, rfl⟩ := List.append_of_mem ha
  obtain ⟨p', q', rfl⟩ := List.append_of_mem hb
  have houtside : ∀ c ∈ left ++ [a, b] ++ right,
      c ∈ before ++ p ++ [a] ∨ c ∈ b :: (q' ++ rest) := by
    simp only [List.mem_append, List.mem_cons, List.not_mem_nil, or_false]
    rintro c ((hc | rfl | rfl) | hc)
    · exact .inl (.inl (.inl (hleft.mem hc)))
    · exact .inl (.inr rfl)
    · exact .inr (.inl rfl)
    · exact .inr (.inr (.inr (hright.mem hc)))
  have hnodup : (before ++ p ++ [a] ++ (q ++ p' ++ b :: (q' ++ rest))).Nodup := by simpa using hxs
  obtain ⟨-, htail, hhead⟩ := List.nodup_append.mp hnodup
  obtain ⟨-, -, hbetween⟩ := List.nodup_append.mp htail
  refine ⟨before ++ p, q ++ p', q' ++ rest, by simp, fun c hc hout => ?_⟩
  rcases houtside c hout with hout | hout
  · exact hhead c hout c (List.mem_append_left _ hc) rfl
  · exact hbetween c hc c hout rfl

/-- Two values that come to stand beside each other, and are the same in one respect, have stood
apart: a value between them that went is another in that respect. -/
theorem Survivors.exists_changed (h : Survivors same keep .neighbours xs out) (hxs : xs.Nodup)
    {alike : β → β → Prop} (halike : Equivalence alike) (hsame : ∀ a b, alike a b → same a b)
    (hab : [a, b] <:+: out) (hequal : alike a b) :
    ∃ between, a :: (between ++ [b]) <:+: xs ∧ (∀ c ∈ between, c ∉ out) ∧
      ∃ c ∈ between, ¬ alike a c := by
  obtain ⟨before, between, after, hsplit, hwent⟩ := exists_between h.sublist hxs hab
  refine ⟨between, ⟨before, after, by simp [hsplit]⟩, hwent, ?_⟩
  by_contra! hall
  have hmem := hab.subset
  cases keep with
  | first =>
    -- the second value was compared with the one right before it
    have hright : xs = (before ++ a :: between) ++ b :: after := by simp [hsplit]
    have hdiffer := h.not_same hxs hright (hmem (by simp))
    rcases between.eq_nil_or_concat' with rfl | ⟨between, c, rfl⟩
    · exact hdiffer a (by simp [RepeatScope.reach, Keep.rivals]) (hsame b a (halike.symm hequal))
    · have hc := halike.symm (hall c (by simp))
      exact hdiffer c (by simp [RepeatScope.reach, Keep.rivals])
        (hsame b c (halike.symm (halike.trans hc hequal)))
  | last =>
    -- the first value was compared with the one right after it
    have hdiffer := h.not_same hxs hsplit (hmem (by simp))
    rcases between with - | ⟨c, between⟩
    · exact hdiffer b (by simp [RepeatScope.reach, Keep.rivals]) (hsame a b hequal)
    · exact hdiffer c (by simp [RepeatScope.reach, Keep.rivals]) (hsame a c (hall c (by simp)))

end Lists

section Rows

variable {α : Type} [Scalar α]

/-- Two rows of a table have the same cell in some of the columns. -/
def Table.SameSomewhere (t : Table α) (columns : List String) (a b : CellRow α) : Prop :=
  ∃ name ∈ columns, t.SameIn [name] a b

variable {t : Table α} {columns : List String} {positions : List Nat}

theorem rowRepeats_any_iff (h : t.positions columns = .ok positions) (a b : CellRow α) :
    rowRepeats false positions a b = true ↔ t.SameSomewhere columns a b := by
  have hfound := mapM_eq_ok.mp h
  have hsingle : ∀ {name i}, t.position name = .ok i →
      (Cell.same (cellAt a i) (cellAt b i) = true ↔ t.SameIn [name] a b) := fun hi => by
    simp [Table.SameIn, Table.position_eq_ok.mp hi]
  rw [rowRepeats, if_neg Bool.false_ne_true, List.any_eq_true]
  constructor
  · rintro ⟨i, hi, hsame⟩
    obtain ⟨name, hname, hposition⟩ := exists_of_mem_right hfound hi
    exact ⟨name, hname, (hsingle hposition).mp hsame⟩
  · rintro ⟨name, hname, hsame⟩
    obtain ⟨i, hi, hposition⟩ := exists_of_mem_left hfound hname
    exact ⟨i, hi, (hsingle hposition).mpr hsame⟩

variable [LawfulScalar α]

theorem rowRepeats_symm (allColumns : Bool) (positions : List Nat) (a b : CellRow α) :
    rowRepeats allColumns positions a b = rowRepeats allColumns positions b a := by
  have hcells : ∀ i, Cell.same (cellAt a i) (cellAt b i) = Cell.same (cellAt b i) (cellAt a i) :=
    fun i => Bool.eq_iff_iff.mpr (by rw [Cell.same_iff, Cell.same_iff, eq_comm])
  simp only [rowRepeats, hcells]

/-- When rows are compared in one column only, no neighbours among those that are left have the
same cell in it. -/
theorem isChain_withoutRepeats_single (ht : t.Valid) (keep : Keep) {name : String}
    (h : t.positions [name] = .ok positions) :
    (withoutRepeats (rowRepeats false positions) keep .neighbours t.rows).IsChain fun a b =>
      ¬ t.SameSomewhere [name] a b := by
  have hany : rowRepeats false positions = rowRepeats (α := α) true positions := by
    funext a b
    rw [Bool.eq_iff_iff, rowRepeats_any_iff h, rowRepeats_iff h]
    simp [Table.SameSomewhere]
  have hchanges := (ht.ordered.compressed (rowRepeats_equivalence positions) keep).changes
  rw [← hany] at hchanges
  exact hchanges.imp fun a b hab => mt (rowRepeats_any_iff h a b).mpr hab

end Rows

variable {α : Type} [Scalar α] [LawfulScalar α]

/-- **Repeats in any column.** When a repeat in one of the compared columns is enough, the rows that
are left, as they are and in their order, are those that differ from their neighbour in the table in
every one of these columns. Rows that come to stand beside each other can still have the same cell
in a compared column, but only across rows that went, one of which has another cell there. Leaving
out repeats again changes nothing exactly when no neighbours have a cell in common, as when there is
a single column to compare. -/
theorem withoutRepeats_anyColumn {t : Table α} (ht : t.Valid) (keep : Keep)
    {columns : Option (List String)} (h : ∀ names ∈ columns, ∀ name ∈ names, name ∈ t.names) :
    let compared := columns.getD t.names
    let differ := fun a b => ¬ t.SameSomewhere compared a b
    ∃ out, t.withoutRepeats keep .neighbours columns false = .ok out ∧ out.names = t.names ∧
      Survivors (t.SameSomewhere compared) keep .neighbours t.rows out.rows ∧
      (∀ name ∈ compared, ∀ a b, [a, b] <:+: out.rows → t.SameIn [name] a b →
        ∃ between, a :: (between ++ [b]) <:+: t.rows ∧ (∀ c ∈ between, c ∉ out.rows) ∧
          ∃ c ∈ between, ¬ t.SameIn [name] a c) ∧
      (out.withoutRepeats keep .neighbours columns false = .ok out ↔ out.rows.IsChain differ) ∧
      (compared.length = 1 → out.rows.IsChain differ) := by
  intro compared differ
  obtain ⟨positions, hpositions, hcompared⟩ := ht.exists_compared h
  have hsame : (fun a b => rowRepeats false positions a b = true) = t.SameSomewhere compared :=
    funext₂ fun a b => propext (rowRepeats_any_iff hpositions a b)
  have hout : t.withoutRepeats keep .neighbours columns false = _ :=
    t.withoutRepeats_eq keep columns (.inl rfl)
  rw [hcompared, ok_map] at hout
  have hsurvivors : Survivors (t.SameSomewhere compared) keep .neighbours t.rows
      (StepSignal.withoutRepeats (rowRepeats false positions) keep .neighbours t.rows) :=
    hsame ▸ survivors_withoutRepeats keep .neighbours t.rows
  refine ⟨_, hout, rfl, hsurvivors, fun name hname a b hab hequal => ?_, ?_, fun hone => ?_⟩
  · exact hsurvivors.exists_changed ht.rows_nodup (t.sameIn_equivalence [name])
      (fun _ _ hab => ⟨name, hname, hab⟩) hab hequal
  · rw [Table.withoutRepeats_eq _ keep columns (.inl rfl), Table.compared_rows, hcompared, ok_map,
      Except.ok.injEq, Table.mk.injEq, and_iff_right rfl,
      withoutRepeats_neighbours_eq_self_iff (rowRepeats_symm false positions)]
    refine List.IsChain.iff fun a b => ?_
    rw [← Bool.not_eq_true, rowRepeats_any_iff hpositions]
  · obtain ⟨name, hsingle⟩ := List.length_eq_one_iff.mp hone
    have hposition : t.positions [name] = .ok positions := hsingle ▸ hpositions
    exact (isChain_withoutRepeats_single ht keep hposition).imp fun a b hab => by
      simpa only [differ, hsingle] using hab

/-- The row in the middle goes, as its number of the first column comes again. The two others meet,
with one of the two zeros each in the second column. -/
theorem withoutRepeats_anyColumn_of_zeros :
    let t : Table Float := ⟨["a", "b"], [⟨0, [.int 1, .num 0]⟩, ⟨1, [.int 2, .num (0 / 0)]⟩,
      ⟨4, [.int 2, .num (-0.0)]⟩]⟩
    let early : CellRow Float := ⟨0, [.int 1, .num 0]⟩
    let late : CellRow Float := ⟨4, [.int 2, .num (-0.0)]⟩
    t.Valid ∧ (∀ name ∈ ["a", "b"], name ∈ t.names) ∧
      t.withoutRepeats .last .neighbours (some ["a", "b"]) false
        = .ok ⟨["a", "b"], [early, late]⟩ ∧
      Survivors (t.SameSomewhere ["a", "b"]) .last .neighbours t.rows [early, late] ∧
      t.SameIn ["b"] early late ∧
      ∃ between, early :: (between ++ [late]) <:+: t.rows ∧ (∀ c ∈ between, c ∉ [early, late]) ∧
        ∃ c ∈ between, ¬ t.SameIn ["b"] early c := by
  intro t early late
  have hordered : Ordered [(0 : Float), 1, 4] := checkIndex_eq_ok.mp (by decide)
  have ht : t.Valid := ⟨hordered, by decide, by decide⟩
  have hnames : ∀ name ∈ ["a", "b"], name ∈ t.names := by decide
  have hcolumns : ∀ names ∈ some ["a", "b"], ∀ name ∈ names, name ∈ t.names := by
    rintro _ ⟨⟩
    exact hnames
  have hout : t.withoutRepeats .last .neighbours (some ["a", "b"]) false
      = .ok ⟨["a", "b"], [early, late]⟩ := by decide +kernel
  have hposition : t.positions ["b"] = .ok [1] := by decide
  have hzeros : t.SameIn ["b"] early late :=
    (rowRepeats_iff hposition early late).mp (by decide +kernel)
  obtain ⟨out, hout', -, hsurvivors, hapart, -⟩ := withoutRepeats_anyColumn ht .last hcolumns
  obtain rfl := Except.ok.inj (hout.symm.trans hout')
  exact ⟨ht, hnames, hout, hsurvivors, hzeros,
    hapart "b" (by decide) early late (List.infix_refl _) hzeros⟩

/-- The middle of three rows goes, as it repeats the row before it in the first column. The last row
differs from it in both, and stays. But it has the first row's number in the second column, and goes
when repeats are left out again. -/
theorem withoutRepeats_anyColumn_leaves_repeat :
    let t : Table Float := ⟨["a", "b"], [⟨0, [.int 1, .int 1]⟩, ⟨1, [.int 1, .int 2]⟩,
      ⟨2, [.int 2, .int 1]⟩]⟩
    let once : Table Float := ⟨["a", "b"], [⟨0, [.int 1, .int 1]⟩, ⟨2, [.int 2, .int 1]⟩]⟩
    t.Valid ∧ (∀ name ∈ ["a", "b"], name ∈ t.names) ∧
      t.withoutRepeats .first .neighbours (some ["a", "b"]) false = .ok once ∧
      (¬ once.rows.IsChain fun a b => ¬ t.SameSomewhere ["a", "b"] a b) ∧
      once.withoutRepeats .first .neighbours (some ["a", "b"]) false ≠ .ok once := by
  intro t once
  have hordered : Ordered [(0 : Float), 1, 2] := checkIndex_eq_ok.mp (by decide)
  have hposition : t.positions ["a", "b"] = .ok [0, 1] := by decide
  refine ⟨⟨hordered, by decide, by decide⟩, by decide, by decide +kernel, fun hchain => ?_,
    by decide +kernel⟩
  exact (List.isChain_cons_cons.mp hchain).1
    ((rowRepeats_any_iff hposition _ _).mp (by decide +kernel))

end StepSignal
