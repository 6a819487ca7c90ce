import StepSignal.Proofs.Document.Choices
import StepSignal.Proofs.Toml.Reader

/-!
# What TOML can write

A document that is written as sections or on one line has a spelling, which is itself; only entries
without a value are left out. What was written is read back.
-/

namespace StepSignal.Toml

open Settings (isWritten)

variable {depth : Nat} {d : Document} {fields : List (String × Document)}

/-! ## Spellings -/

theorem spellableItems?_self {items : List Document} (h : ∀ d ∈ items, spellable? d = some d) :
    spellableItems? items = some items := by
  induction items with
  | nil => rfl
  | cons d items ih =>
    obtain ⟨hd, hitems⟩ := List.forall_mem_cons.mp h
    rw [spellableItems?, hd, ih hitems]
    rfl

theorem spellable?_list {items : List Document} (h : ∀ d ∈ items, spellable? d = some d) :
    spellable? (.list items) = some (.list items) := by
  rw [spellable?, spellableItems?_self h, Option.map_some]

/-- A record is written without its empty entries. -/
theorem spellable?_record (h : ∀ f ∈ fields, f.2 = .null ∨ spellable? f.2 = some f.2) :
    spellable? (.record fields) = some (.record (fields.filter (isWritten true))) := by
  have hentries : spellableEntries? (entriesOf fields) =
      some (entriesOf (fields.filter (isWritten true))) := by
    induction fields with
    | nil => rfl
    | cons f fields ih =>
      obtain ⟨hf, hfields⟩ := List.forall_mem_cons.mp h
      obtain ⟨name, value⟩ := f
      show spellableEntries? ((.text name, value) :: entriesOf fields) = _
      by_cases hnull : value = .null
      · subst hnull
        rw [spellableEntries?, ih hfields]
        rfl
      · rw [spellableEntries?.eq_3 _ _ _ hnull, hf.resolve_left hnull, ih hfields,
          List.filter_cons_of_pos (Settings.isWritten_of_ne hnull)]
        rfl
  rw [Document.record, spellable?]
  exact congrArg (Option.map Document.map) hentries

theorem isWritten_of_spellable? {f : String × Document} (h : spellable? f.2 = some f.2) :
    isWritten true f = true := by
  refine Settings.isWritten_of_ne (fun hnull => ?_)
  rw [hnull] at h
  exact absurd h (by simp [spellable?])

theorem spellable?_record_self (h : ∀ f ∈ fields, spellable? f.2 = some f.2) :
    spellable? (.record fields) = some (.record fields) := by
  have hall : fields.filter (isWritten true) = fields :=
    List.filter_eq_self.mpr fun f hf => isWritten_of_spellable? (h f hf)
  rw [spellable?_record fun f hf => .inr (h f hf), hall]

/-- A list with an item that has no spelling has none. -/
theorem spellable?_list_eq_none {items : List Document} (hd : d ∈ items)
    (h : spellable? d = none) : spellable? (.list items) = none := by
  have hitems : spellableItems? items = none := by
    induction items with
    | nil => exact absurd hd List.not_mem_nil
    | cons e items ih =>
      rw [spellableItems?]
      rcases List.mem_cons.mp hd with rfl | hd
      · rw [h]
        rfl
      · rw [ih hd]
        cases spellable? e <;> rfl
  rw [spellable?, hitems, Option.map_none]

/-- A record with a value that has no spelling has none. -/
theorem spellable?_record_eq_none {f : String × Document} (hf : f ∈ fields) (hnull : f.2 ≠ .null)
    (h : spellable? f.2 = none) : spellable? (.record fields) = none := by
  have hentries : spellableEntries? (entriesOf fields) = none := by
    induction fields with
    | nil => exact absurd hf List.not_mem_nil
    | cons g fields ih =>
      obtain ⟨name, value⟩ := g
      show spellableEntries? ((.text name, value) :: entriesOf fields) = _
      rcases List.mem_cons.mp hf with rfl | hf
      · rw [spellableEntries?.eq_3 _ _ _ hnull, h]
        rfl
      · by_cases hvalue : value = .null
        · rw [hvalue, spellableEntries?, ih hf]
        · rw [spellableEntries?.eq_3 _ _ _ hvalue, ih hf]
          cases spellable? value <;> rfl
  rw [Document.record, spellable?]
  exact congrArg (Option.map Document.map) hentries

/-- What is written on one line has a spelling. -/
theorem Inline.spellable?_eq (h : Inline depth d) : spellable? d = some d := by
  induction h with
  | bool b => rw [spellable?]
  | natural h => rw [spellable?, if_pos h]
  | integer h => rw [spellable?, if_pos h]
  | float x => rw [spellable?]
  | text s => rw [spellable?]
  | list _ ih => exact spellable?_list ih
  | record _ _ ih => exact spellable?_record_self ih

/-- **What is written in sections has a spelling.** -/
theorem Sectioned.spellable?_eq (h : Sectioned depth fields) :
    spellable? (.record fields) = some (.record fields) := by
  induction depth generalizing fields with
  | zero => exact h.elim
  | succ depth ih =>
    obtain ⟨plain, more, rfl, hplain, hmore, -⟩ := h.layers
    refine spellable?_record_self fun f hf => ?_
    rcases List.mem_append.mp hf with hf | hf
    · exact (hplain f hf).2.spellable?_eq
    · rcases hmore f hf with ⟨fields, hrecord, hfields⟩ | ⟨items, -, hlist, hitems⟩
      · rw [hrecord, ih hfields]
      · rw [hlist]
        refine spellable?_list fun d hd => ?_
        obtain ⟨fields, hfields, rfl⟩ := List.mem_map.mp hd
        exact ih (hitems fields hfields)

/-! ## Sections -/

theorem hasSections_list {items : List Document} (h : ∀ d ∈ items, isMap d = false) :
    hasSections (.list items) = false := by
  cases items with
  | nil => rfl
  | cons d items => simp [hasSections, h d List.mem_cons_self]

/-- A map of plain values. -/
theorem sectioned_plain (hnames : (fields.map (·.1)).Nodup)
    (h : ∀ f ∈ fields, hasSections f.2 = false ∧ Inline 79 f.2) : Sectioned (depth + 1) fields :=
  ⟨hnames, fields, [], (List.append_nil fields).symm, h, by simp, fun _ => rfl⟩

/-- A map of plain values with one more value behind them, which may have sections. -/
theorem sectioned_concat {plain : List (String × Document)} {f : String × Document}
    (hnames : ((plain ++ [f]).map (·.1)).Nodup) (hne : plain ≠ [])
    (hplain : ∀ g ∈ plain, hasSections g.2 = false ∧ Inline 79 g.2)
    (hf : hasSections f.2 = false ∧ Inline 79 f.2 ∨ Part (Sectioned depth) f.2) :
    Sectioned (depth + 1) (plain ++ [f]) := by
  rcases hf with hf | hf
  · refine sectioned_plain hnames (List.forall_mem_append.mpr ⟨hplain, ?_⟩)
    simpa using hf
  · exact ⟨hnames, plain, [f], rfl, hplain, by simpa using hf, fun h => absurd h hne⟩

/-! ## Texts -/

/-- **A document with a spelling in sections is written as those sections.** -/
theorem write?_eq_documentText (hd : spellable? d = some (.record fields))
    (h : Sectioned depth fields) : write? d = some (documentText fields) := by
  rw [write?, hd]
  simp only [Option.bind_eq_bind, Option.bind_some, Document.record]
  split
  · rename_i heq
    rw [← entriesOf, ← documentText] at heq
    -- the first line is the one of a value, and no break comes before it
    rcases documentText_start h with hempty | ⟨c, more, htext, hc⟩
    · rw [hempty] at heq
      exact absurd heq (by simp)
    · rw [htext] at heq
      rw [(List.cons.inj heq).1] at hc
      exact absurd hc (by decide)
  · rfl

end StepSignal.Toml
