import StepSignal.Proofs.OuterJoin

/-!
# When a merge succeeds

Two valid tables can be joined unless the join has a column name twice. A name `n` that both sides
use becomes `n_x` and `n_y`. These are new if no column is called so. They are also new if both
sides have such a column, because it gets a longer name then; but if one side only has it, it keeps
its name and the join fails (`Joinable`).

Endings are chosen pair by pair, so the names of an earlier join meet those of a later table. A name
that more and more tables use becomes `n`, then `n_x` and `n_y`, then `n_x`, `n_y` and `n`, and the
fourth table with it makes a second `n_x`.
-/

namespace StepSignal

open Scalar

/-! ## Endings -/

/-- What a join puts after a name that both sides use. -/
def endings : List String := ["_x", "_y"]

theorem length_of_mem_endings : ∀ e ∈ endings, e.toList.length = 2 := by decide

theorem eq_of_append_ending {n m a b : String} (ha : a ∈ endings) (hb : b ∈ endings)
    (h : n ++ a = m ++ b) : n = m ∧ a = b := by
  have hlen := (length_of_mem_endings a ha).trans (length_of_mem_endings b hb).symm
  have hchars := congrArg String.toList h
  rw [String.toList_append, String.toList_append] at hchars
  obtain ⟨hn, he⟩ := List.append_inj' hchars hlen
  exact ⟨String.toList_injective hn, String.toList_injective he⟩

theorem append_ending_ne {n e : String} (he : e ∈ endings) : n ++ e ≠ n := by
  intro h
  have hlen := congrArg (·.toList.length) h
  simp only [String.toList_append, List.length_append, length_of_mem_endings e he] at hlen
  omega

/-! ## Two tables -/

/-- The names of two tables differ in their join: a name that a shared one becomes is a name of both
sides or of none. -/
def Joinable (left right : List String) : Prop :=
  ∀ n ∈ left, n ∈ right → ∀ e ∈ endings, (n ++ e ∈ left ↔ n ++ e ∈ right)

instance (left right : List String) : Decidable (Joinable left right) :=
  inferInstanceAs (Decidable (∀ n ∈ left, n ∈ right → ∀ e ∈ endings,
    (n ++ e ∈ left ↔ n ++ e ∈ right)))

section Names

variable {left right seen names : List String} {s : String}

/-- A join has the names that one side only uses, and those that the shared ones become. -/
theorem mem_joinNames : s ∈ joinNames left right ↔
    (s ∈ left ∧ s ∉ right) ∨ (s ∈ right ∧ s ∉ left) ∨
      ∃ n ∈ left, n ∈ right ∧ ∃ e ∈ endings, s = n ++ e := by
  simp only [joinNames, List.mem_append, List.mem_map, List.contains_iff_mem]
  constructor
  · rintro (⟨n, hn, rfl⟩ | ⟨n, hn, rfl⟩) <;> split <;> rename_i hother
    · exact .inr (.inr ⟨n, hn, hother, "_x", by decide, rfl⟩)
    · exact .inl ⟨hn, hother⟩
    · exact .inr (.inr ⟨n, hother, hn, "_y", by decide, rfl⟩)
    · exact .inr (.inl ⟨hn, hother⟩)
  · rintro (⟨hl, hr⟩ | ⟨hr, hl⟩ | ⟨n, hl, hr, e, he, rfl⟩)
    · exact .inl ⟨s, hl, if_neg hr⟩
    · exact .inr ⟨s, hr, if_neg hl⟩
    · obtain rfl | rfl : e = "_x" ∨ e = "_y" := by simpa [endings] using he
      · exact .inl ⟨n, hl, if_pos hr⟩
      · exact .inr ⟨n, hr, if_pos hl⟩

/-- Names stay different when some of them get an ending, unless one becomes another that stays. -/
theorem nodup_map_ending (hnames : names.Nodup) {shared : String → Bool} {e : String}
    (he : e ∈ endings) :
    (names.map fun n => if shared n then n ++ e else n).Nodup ↔
      ∀ n ∈ names, shared n = true → n ++ e ∈ names → shared (n ++ e) = true := by
  rw [List.nodup_map_iff_inj_on hnames]
  constructor
  · intro hinj n hn hshared hmem
    by_contra hnot
    have heq := hinj n hn (n ++ e) hmem (by rw [if_pos hshared, if_neg hnot])
    exact append_ending_ne he heq.symm
  · intro hclosed n hn m hm heq
    split at heq <;> split at heq <;> rename_i hsn hsm
    · exact (eq_of_append_ending he he heq).1
    · subst heq
      exact absurd (hclosed n hn hsn hm) hsm
    · subst heq
      exact absurd (hclosed m hm hsm hn) hsn
    · exact heq

theorem nodup_joinNames (hl : left.Nodup) (hr : right.Nodup) :
    (joinNames left right).Nodup ↔ Joinable left right := by
  have hx : "_x" ∈ endings := by decide
  have hy : "_y" ∈ endings := by decide
  rw [joinNames, List.nodup_append, nodup_map_ending hl hx, nodup_map_ending hr hy]
  simp only [List.contains_iff_mem, List.forall_mem_map]
  constructor
  · rintro ⟨hleft, hright, hapart⟩ n hnl hnr e he
    obtain rfl | rfl : e = "_x" ∨ e = "_y" := by simpa [endings] using he
    · refine ⟨hleft n hnl hnr, fun hmem => ?_⟩
      by_contra hnot
      exact hapart n hnl _ hmem (by rw [if_pos hnr, if_neg hnot])
    · refine ⟨fun hmem => ?_, hright n hnr hnl⟩
      by_contra hnot
      exact hapart _ hmem n hnr (by rw [if_neg hnot, if_pos hnl])
  · intro h
    refine ⟨fun n hn hshared => (h n hn hshared _ hx).mp,
      fun n hn hshared => (h n hshared hn _ hy).mpr, fun n hn m hm heq => ?_⟩
    split at heq <;> split at heq <;> rename_i hnr hml
    · exact absurd (eq_of_append_ending hx hy heq).2 (by decide)
    · exact hml (heq ▸ (h n hn hnr _ hx).mpr (heq ▸ hm))
    · exact hnr (heq ▸ (h m hml hm _ hy).mp (heq ▸ hn))
    · exact hnr (heq ▸ hm)

/-- A list of names has no first repeated one when they differ. -/
theorem firstRepeated_eq_none (hnames : names.Nodup) (hseen : ∀ n ∈ names, n ∉ seen) :
    firstRepeated seen names = none := by
  induction names generalizing seen with
  | nil => rfl
  | cons n names ih =>
    rw [List.nodup_cons] at hnames
    rw [List.forall_mem_cons] at hseen
    rw [firstRepeated, if_neg (by simpa using hseen.1)]
    refine ih hnames.2 fun m hm => ?_
    rw [List.mem_cons, not_or]
    exact ⟨fun heq => hnames.1 (heq ▸ hm), hseen.2 m hm⟩

end Names

/-! ## Joined rows -/

section Rows

variable {α : Type} [Scalar α] {ls rs : List (CellRow α)} {time : α}

/-- A join has no times but those of its sides. -/
theorem mem_times_joinRows {leftWidth rightWidth : Nat}
    (h : time ∈ Stamped.times (joinRows leftWidth rightWidth ls rs)) :
    time ∈ Stamped.times ls ∨ time ∈ Stamped.times rs := by
  fun_induction joinRows leftWidth rightWidth ls rs with
  | case1 rs => exact .inr (by simpa [Stamped.times] using h)
  | case2 ls => exact .inl (by simpa [Stamped.times] using h)
  | case3 l ls r rs _ ih | case4 l ls r rs _ _ ih | case5 l ls r rs _ _ ih =>
    simp only [Stamped.times_cons, List.mem_cons] at h ih ⊢
    tauto

variable [LawfulScalar α]

theorem ordered_cons {first : α} {index : List α} :
    Ordered (first :: index) ↔
      isFinite first = true ∧ (∀ t ∈ index, Before first t) ∧ Ordered index := by
  rw [ordered_iff, ordered_iff, List.forall_mem_cons, List.pairwise_cons]
  tauto

/-- Joined rows are ordered like those of both sides: the row in front is before or at the first row
of the other side, so all rows behind it are later. -/
theorem ordered_joinRows (leftWidth rightWidth : Nat) (hls : Ordered (Stamped.times ls))
    (hrs : Ordered (Stamped.times rs)) :
    Ordered (Stamped.times (joinRows leftWidth rightWidth ls rs)) := by
  fun_induction joinRows leftWidth rightWidth ls rs with
  | case1 rs => simpa [Stamped.times, Function.comp_def] using hrs
  | case2 ls => simpa [Stamped.times, Function.comp_def] using hls
  | case3 l ls r rs heq ih =>
    obtain ⟨hfinite, hleft, hls⟩ := ordered_cons.mp hls
    obtain ⟨-, hright, hrs⟩ := ordered_cons.mp hrs
    obtain ⟨-, -, heq⟩ := (LawfulScalar.eq_iff _ _).mp heq
    refine ordered_cons.mpr ⟨hfinite, fun t ht => ?_, ih hls hrs⟩
    exact (mem_times_joinRows ht).elim (hleft t) fun ht => heq.trans_lt (hright t ht)
  | case4 l ls r rs _ hlt ih =>
    obtain ⟨hfinite, hleft, hls⟩ := ordered_cons.mp hls
    obtain ⟨-, hright, -⟩ := ordered_cons.mp hrs
    obtain ⟨-, -, hlt⟩ := (LawfulScalar.lt_iff _ _).mp hlt
    refine ordered_cons.mpr ⟨hfinite, fun t ht => ?_, ih hls hrs⟩
    rcases mem_times_joinRows ht with ht | ht
    · exact hleft t ht
    · rcases List.mem_cons.mp ht with rfl | ht
      · exact hlt
      · exact hlt.trans (hright t ht)
  | case5 l ls r rs hne hnlt ih =>
    have hlt := lt_of_not_lt (hls.isMissing_of_mem List.mem_cons_self)
      (hrs.isMissing_of_mem List.mem_cons_self) hne hnlt
    obtain ⟨-, -, hlt⟩ := (LawfulScalar.lt_iff _ _).mp hlt
    obtain ⟨-, hleft, -⟩ := ordered_cons.mp hls
    obtain ⟨hfinite, hright, hrs⟩ := ordered_cons.mp hrs
    refine ordered_cons.mpr ⟨hfinite, fun t ht => ?_, ih hls hrs⟩
    rcases mem_times_joinRows ht with ht | ht
    · rcases List.mem_cons.mp ht with rfl | ht
      · exact hlt
      · exact hlt.trans (hleft t ht)
    · exact hright t ht

end Rows

/-! ## Joined tables -/

/-- Tables with columns of these names can be joined, one after the other, to columns of the names
`joined`. -/
def JoinableInto (joined : List String) : List (List String) → Prop
  | [] => True
  | names :: rest => Joinable joined names ∧ JoinableInto (joinNames joined names) rest

theorem pick_eq_self {β γ : Type} {xs : List β} {names : List γ} (h : xs.length = names.length) :
    pick (names.map fun _ => true) xs = xs := by
  induction xs generalizing names with
  | nil => simp [pick]
  | cons x xs ih =>
    rcases names with - | ⟨n, names⟩
    · cases h
    · have hrest := ih (Nat.succ.inj h)
      unfold pick at hrest ⊢
      simpa using hrest

namespace Table.Valid

variable {α : Type} [Scalar α] [LawfulScalar α] {t left right joined : Table α}
  {rest : List (Table α)}

/-- Two tables are joined when their names differ in the join. -/
theorem outerJoin_of_joinable (hl : left.Valid) (hr : right.Valid)
    (h : Joinable left.names right.names) :
    left.outerJoin right = .ok ⟨joinNames left.names right.names,
      joinRows left.names.length right.names.length left.rows right.rows⟩ := by
  have hcheck := checkIndex_eq_ok.mpr (ordered_joinRows left.names.length right.names.length
    hl.ordered hr.ordered)
  have hnames : firstRepeated [] (joinNames left.names right.names) = none :=
    firstRepeated_eq_none ((nodup_joinNames hl.distinct hr.distinct).mpr h)
      fun _ _ => List.not_mem_nil
  simp only [Table.outerJoin, hcheck, hnames, ok_bind]
  rfl

/-- Two tables are not joined when a name comes twice. -/
theorem outerJoin_of_not_joinable (hl : left.Valid) (hr : right.Valid)
    (h : ¬ Joinable left.names right.names) :
    ∃ name, left.outerJoin right = .error (.duplicateColumn name) := by
  have hcheck := checkIndex_eq_ok.mpr (ordered_joinRows left.names.length right.names.length
    hl.ordered hr.ordered)
  rcases hrepeated : firstRepeated [] (joinNames left.names right.names) with - | name
  · have hnodup := (nodup_of_firstRepeated hrepeated).1
    exact absurd ((nodup_joinNames hl.distinct hr.distinct).mp hnodup) h
  · exact ⟨name, by simp only [Table.outerJoin, hcheck, hrepeated, ok_bind, throw_eq_error]⟩

/-- Tables are joined when their names differ in every join, and else a name is reported. -/
theorem foldlM_outerJoin (hjoined : joined.Valid) (hrest : ∀ t ∈ rest, t.Valid) :
    (JoinableInto joined.names (rest.map (·.names)) →
      ∃ out, rest.foldlM Table.outerJoin joined = .ok out) ∧
    (¬ JoinableInto joined.names (rest.map (·.names)) →
      ∃ name, rest.foldlM Table.outerJoin joined = .error (.duplicateColumn name)) := by
  induction rest generalizing joined with
  | nil => exact ⟨fun _ => ⟨joined, rfl⟩, fun h => absurd trivial h⟩
  | cons t rest ih =>
    rw [List.forall_mem_cons] at hrest
    rw [List.foldlM_cons, List.map_cons, JoinableInto]
    by_cases h : Joinable joined.names t.names
    · have hnext := hjoined.outerJoin_of_joinable hrest.1 h
      rw [hnext, ok_bind]
      simpa only [h, true_and] using ih (hjoined.outerJoin hrest.1 hnext) hrest.2
    · obtain ⟨name, hname⟩ := hjoined.outerJoin_of_not_joinable hrest.1 h
      rw [hname, error_bind]
      exact ⟨fun hall => absurd hall.1 h, fun _ => ⟨name, rfl⟩⟩

omit [LawfulScalar α] in
/-- With nothing to drop and no condition, a table is joined as it is. -/
theorem prepare_default (ht : t.Valid) : t.prepare ⟨[], []⟩ = .ok t := by
  have hkept : t.whereCells [] = .ok t := by
    simp [Table.whereCells, Table.positions, pure, Except.pure]
  have hrows : (t.rows.map fun row =>
      { row with value := pick (t.names.map fun _ => true) row.value }) = t.rows := by
    refine (List.map_congr_left fun row hrow => ?_).trans (List.map_id t.rows)
    rw [pick_eq_self (ht.width row hrow), id]
  simp only [Table.prepare, hkept, ok_bind, Table.dropColumns, Table.positions, List.map_nil,
    List.append_nil, List.mapM_nil, pure, Except.pure, List.contains_nil, Bool.not_false, hrows,
    pick_eq_self rfl]

omit [LawfulScalar α] in
/-- Merging with default options joins the tables as they are. -/
theorem mergeAll_default {first : Table α} (hvalid : ∀ t ∈ first :: rest, t.Valid) :
    mergeAll (first :: rest) ⟨[], []⟩ = rest.foldlM Table.outerJoin first := by
  have hprepared : (first :: rest).mapM (·.prepare ⟨[], []⟩) = .ok ((first :: rest).map id) :=
    mapM_ok fun t ht => (hvalid t ht).prepare_default
  rw [mergeAll, hprepared, List.map_id, ok_bind]

end Table.Valid

/-! ## Counting a name -/

/-- How many of the tables use a name. -/
def uses (tables : List (List String)) (name : String) : Nat := tables.countP (·.contains name)

/-- No name is another one with an ending. -/
def EndingFree (names : List String) : Prop := ∀ n ∈ names, ∀ e ∈ endings, n ++ e ∉ names

instance (names : List String) : Decidable (EndingFree names) :=
  inferInstanceAs (Decidable (∀ n ∈ names, ∀ e ∈ endings, n ++ e ∉ names))

/-- What the joined tables call their columns, by the number of tables that use a name: the first
one leaves it, the second one makes two of it that have endings, and the third one brings it again.
-/
def Spread (tables : List (List String)) (joined : List String) : Prop :=
  ∀ s, s ∈ joined ↔
    (uses tables s = 1 ∨ uses tables s = 3) ∨ ∃ n, 2 ≤ uses tables n ∧ ∃ e ∈ endings, s = n ++ e

section Counting

variable {tables rest : List (List String)} {names joined : List String} {n e : String}

theorem EndingFree.of_append {names more : List String} (h : EndingFree (names ++ more)) :
    EndingFree names :=
  fun n hn e he hmem => h n (List.mem_append_left _ hn) e he (List.mem_append_left _ hmem)

theorem uses_append (tables rest : List (List String)) (n : String) :
    uses (tables ++ rest) n = uses tables n + uses rest n := List.countP_append

theorem uses_singleton (names : List String) (n : String) :
    uses [names] n = if n ∈ names then 1 else 0 := by
  simp [uses, List.countP_singleton]

theorem uses_append_singleton (tables : List (List String)) (names : List String) (n : String) :
    uses (tables ++ [names]) n = uses tables n + if n ∈ names then 1 else 0 := by
  rw [uses_append, uses_singleton]

theorem uses_pos_iff : 0 < uses tables n ↔ n ∈ tables.flatten := by
  simp [uses, List.countP_pos_iff]

/-- No table uses a name with an ending, if one uses the name. -/
theorem EndingFree.uses_eq_zero (h : EndingFree tables.flatten) (hn : 0 < uses tables n)
    (he : e ∈ endings) : uses tables (n ++ e) = 0 := by
  have hnot := h n (uses_pos_iff.mp hn) e he
  rw [← uses_pos_iff] at hnot
  omega

theorem EndingFree.not_mem (h : EndingFree (tables ++ [names]).flatten)
    (hn : 0 < uses (tables ++ [names]) n) (he : e ∈ endings) : n ++ e ∉ names := by
  have hzero := h.uses_eq_zero hn he
  intro hmem
  rw [uses_append_singleton, if_pos hmem] at hzero
  omega

theorem spread_singleton (names : List String) : Spread [names] names := by
  intro s
  have hone := uses_singleton names
  constructor
  · intro hs
    exact .inl (.inl (by rw [hone, if_pos hs]))
  · rintro (hs | ⟨n, hn, -⟩)
    · by_contra hnot
      rw [hone, if_neg hnot] at hs
      omega
    · rw [hone] at hn
      split at hn <;> omega

/-- A name of the tables is a joined name if it has come once or three times. -/
theorem Spread.mem_iff (h : Spread tables joined) (hfree : EndingFree (tables ++ [names]).flatten)
    (hn : 0 < uses (tables ++ [names]) n) :
    n ∈ joined ↔ uses tables n = 1 ∨ uses tables n = 3 := by
  rw [h n, or_iff_left]
  rintro ⟨m, hm, e, he, rfl⟩
  have hzero := hfree.uses_eq_zero (n := m) (by rw [uses_append_singleton]; omega) he
  omega

/-- A name of the tables is a joined name with endings if it has come twice. -/
theorem Spread.mem_ending_iff (h : Spread tables joined)
    (hfree : EndingFree (tables ++ [names]).flatten) (hn : 0 < uses (tables ++ [names]) n)
    (he : e ∈ endings) : n ++ e ∈ joined ↔ 2 ≤ uses tables n := by
  have hzero := hfree.uses_eq_zero hn he
  rw [uses_append_singleton] at hzero
  rw [h (n ++ e), or_iff_right (by omega)]
  constructor
  · rintro ⟨m, hm, e', he', heq⟩
    rwa [(eq_of_append_ending he he' heq).1]
  · exact fun hn => ⟨n, hn, e, he, rfl⟩

/-- Another table can be joined unless one of its names has come three times. -/
theorem Spread.joinable_iff (h : Spread tables joined)
    (hfree : EndingFree (tables ++ [names]).flatten) (hthree : ∀ n, uses tables n ≤ 3) :
    Joinable joined names ↔ ∀ n, uses (tables ++ [names]) n ≤ 3 := by
  have hused : ∀ {n}, n ∈ names → uses (tables ++ [names]) n = uses tables n + 1 := fun hn => by
    rw [uses_append_singleton, if_pos hn]
  constructor
  · intro hjoinable n
    by_contra hfour
    have hle := hthree n
    have hn : n ∈ names := by
      by_contra hnot
      rw [uses_append_singleton, if_neg hnot] at hfour
      omega
    rw [hused hn] at hfour
    have hpos : 0 < uses (tables ++ [names]) n := by rw [hused hn]; omega
    have hmem := (h.mem_iff hfree hpos).mpr (.inr (by omega))
    have hx : "_x" ∈ endings := by decide
    have hending := (h.mem_ending_iff hfree hpos hx).mpr (by omega)
    exact hfree.not_mem hpos hx ((hjoinable n hmem hn _ hx).mp hending)
  · intro hall n hmem hn e he
    have hpos : 0 < uses (tables ++ [names]) n := by rw [hused hn]; omega
    have hle := hall n
    rw [hused hn] at hle
    rw [h.mem_iff hfree hpos] at hmem
    rw [h.mem_ending_iff hfree hpos he]
    exact iff_of_false (by omega) (hfree.not_mem hpos he)

/-- The joined names stay spread when another table is joined. -/
theorem Spread.step (h : Spread tables joined) (hfree : EndingFree (tables ++ [names]).flatten)
    (hthree : ∀ n, uses (tables ++ [names]) n ≤ 3) :
    Spread (tables ++ [names]) (joinNames joined names) := by
  intro s
  have hcount := uses_append_singleton tables names
  have hle := hthree s
  rw [mem_joinNames]
  constructor
  · rintro (⟨hs, hnot⟩ | ⟨hs, hnot⟩ | ⟨n, hn, hn', e, he, rfl⟩)
    -- a name of the join before, which the table does not use
    · rw [hcount s, if_neg hnot]
      refine ((h s).mp hs).imp id fun ⟨n, hn, hending⟩ => ⟨n, ?_, hending⟩
      rw [hcount n]
      omega
    -- a name that comes for the first or the third time
    · rw [hcount s, if_pos hs] at hle ⊢
      rw [h.mem_iff hfree (by rw [hcount s, if_pos hs]; omega)] at hnot
      exact .inl (by omega)
    -- a name that comes for the second time
    · have hone := (h.mem_iff hfree (by rw [hcount n, if_pos hn']; omega)).mp hn
      refine .inr ⟨n, ?_, e, he, rfl⟩
      rw [hcount n, if_pos hn']
      omega
  · rintro (hs | ⟨n, hn, e, he, rfl⟩)
    · have hmem := h.mem_iff (n := s) hfree (by omega)
      by_cases hnew : s ∈ names
      · rw [hcount s, if_pos hnew] at hs
        exact .inr (.inl ⟨hnew, by rw [hmem]; omega⟩)
      · rw [hcount s, if_neg hnew] at hs
        exact .inl ⟨hmem.mpr hs, hnew⟩
    · have hpos : 0 < uses (tables ++ [names]) n := by omega
      by_cases htwo : 2 ≤ uses tables n
      · exact .inl ⟨(h.mem_ending_iff hfree hpos he).mpr htwo, hfree.not_mem hpos he⟩
      · have hnew : n ∈ names := by
          by_contra hnew
          rw [hcount n, if_neg hnew] at hn
          omega
        rw [hcount n, if_pos hnew] at hn
        exact .inr (.inr ⟨n, (h.mem_iff hfree hpos).mpr (.inl (by omega)), hnew, e, he, rfl⟩)

/-- Tables with names that are free of endings can be joined when no name is in more than three of
them. -/
theorem Spread.joinableInto_iff (h : Spread tables joined)
    (hfree : EndingFree (tables ++ rest).flatten) (hthree : ∀ n, uses tables n ≤ 3) :
    JoinableInto joined rest ↔ ∀ n, uses (tables ++ rest) n ≤ 3 := by
  induction rest generalizing tables joined with
  | nil => simpa [JoinableInto] using hthree
  | cons names rest ih =>
    rw [List.append_cons] at hfree ⊢
    have hfree' : EndingFree (tables ++ [names]).flatten := by
      rw [List.flatten_append] at hfree
      exact hfree.of_append
    rw [JoinableInto, h.joinable_iff hfree' hthree]
    by_cases hnext : ∀ n, uses (tables ++ [names]) n ≤ 3
    · rw [and_iff_right hnext]
      exact ih (h.step hfree' hnext) hfree hnext
    · refine iff_of_false (fun hall => hnext hall.1) fun hall => hnext fun n => ?_
      have hle := hall n
      rw [uses_append] at hle
      omega

end Counting

/-! ## Merging -/

/-- **When a merge succeeds.** With default options, a list of valid tables is merged if in every
join from left to right a name that a shared one becomes is a name of both sides or of none; if not,
the merge reports a name that comes twice. So tables none of whose names is another one with an
ending are merged if and only if no name is in more than three of them. -/
theorem mergeAll_succeeds {α : Type} [Scalar α] [LawfulScalar α] {first : Table α}
    {rest : List (Table α)} (hvalid : ∀ t ∈ first :: rest, t.Valid) :
    (JoinableInto first.names (rest.map (·.names)) →
      ∃ out, mergeAll (first :: rest) ⟨[], []⟩ = .ok out) ∧
    (¬ JoinableInto first.names (rest.map (·.names)) →
      ∃ name, mergeAll (first :: rest) ⟨[], []⟩ = .error (.duplicateColumn name)) ∧
    (EndingFree ((first :: rest).flatMap (·.names)) →
      ((∃ out, mergeAll (first :: rest) ⟨[], []⟩ = .ok out) ↔
        ∀ n, uses ((first :: rest).map (·.names)) n ≤ 3)) := by
  rw [Table.Valid.mergeAll_default hvalid]
  rw [List.forall_mem_cons] at hvalid
  obtain ⟨hok, herror⟩ := hvalid.1.foldlM_outerJoin hvalid.2
  refine ⟨hok, herror, fun hfree => ?_⟩
  have hiff : (∃ out, rest.foldlM Table.outerJoin first = .ok out) ↔
      JoinableInto first.names (rest.map (·.names)) := by
    refine ⟨fun ⟨out, hout⟩ => ?_, hok⟩
    by_contra hnot
    obtain ⟨name, hname⟩ := herror hnot
    rw [hname] at hout
    cases hout
  rw [hiff, List.map_cons, ← List.singleton_append]
  refine (spread_singleton first.names).joinableInto_iff hfree fun n => ?_
  exact (List.countP_le_length).trans (by simp)

/-- Three tables that share a name. -/
theorem mergeAll_succeeds_of_three_tables :
    let first : Table Float := ⟨["v"], [⟨0, [.int 1]⟩]⟩
    let rest : List (Table Float) := [⟨["v", "w"], [⟨0, [.int 2, .int 3]⟩, ⟨1, [.int 4, .null]⟩]⟩,
      ⟨["v"], [⟨2, [.int 5]⟩]⟩]
    (∀ t ∈ first :: rest, t.Valid) ∧ JoinableInto first.names (rest.map (·.names)) ∧
      EndingFree ((first :: rest).flatMap (·.names)) ∧
      (∃ out, mergeAll (first :: rest) ⟨[], []⟩ = .ok out) ∧
      ∀ n, uses ((first :: rest).map (·.names)) n ≤ 3 := by
  intro first rest
  have hvalid : ∀ t ∈ first :: rest, t.Valid := by
    simp only [first, rest, List.forall_mem_cons]
    exact ⟨⟨checkIndex_eq_ok.mp rfl, by decide, by decide⟩,
      ⟨checkIndex_eq_ok.mp rfl, by decide, by decide⟩,
      ⟨checkIndex_eq_ok.mp rfl, by decide, by decide⟩, nofun⟩
  have hjoinable : JoinableInto first.names (rest.map (·.names)) :=
    ⟨by decide +kernel, by decide +kernel, trivial⟩
  have hfree : EndingFree ((first :: rest).flatMap (·.names)) := by decide +kernel
  obtain ⟨hok, -, hcount⟩ := mergeAll_succeeds hvalid
  exact ⟨hvalid, hjoinable, hfree, hok hjoinable, (hcount hfree).mp (hok hjoinable)⟩

/-- Four tables that share a name are not merged. -/
theorem not_mergeAll_of_four_tables :
    let table : Int64 → Table Float := fun i => ⟨["cpu"], [⟨0, [.int i]⟩]⟩
    let tables := [table 1, table 2, table 3, table 4]
    (∀ t ∈ tables, t.Valid) ∧ mergeAll tables ⟨[], []⟩ = .error (.duplicateColumn "cpu_x") := by
  intro table tables
  have hvalid : ∀ i, (table i).Valid := fun i =>
    ⟨show Ordered [(0 : Float)] from checkIndex_eq_ok.mp rfl, by simp [table], by simp [table]⟩
  exact ⟨by simp [tables, hvalid], by decide +kernel⟩

end StepSignal
