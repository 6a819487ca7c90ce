import StepSignal.Proofs.Toml.Writer
import StepSignal.Proofs.Utf8

/-!
# Objects stored as TOML

The envelope of an object is written in sections: the payload has one, the columns of a table have one
each, and so do the cells of a column without empty cells. The format has no word for an absent value
and no whole numbers of 64 bits without a sign, so that a series with a missing sample cannot be
written, nor can settings with a length of names that is too large; absent settings are left out.
-/

namespace StepSignal

namespace Toml

variable {depth : Nat}

/-! ## Cells and columns -/

theorem inline_ofInt (n : Int64) : Inline depth (.ofInt n.toInt) := by
  have hlow := n.minValue_le_toInt
  have hhigh := n.toInt_le
  rw [Document.ofInt]
  split
  · refine .natural ?_
    have hmax : Int64.maxValue.toInt = 2 ^ 63 - 1 := by decide
    rw [Nat.one_shiftLeft]
    omega
  · exact .integer ⟨hlow, hhigh⟩

/-- The fields of a cell that is not empty. -/
theorem exists_cell_record {c : Cell Float} (hc : c ≠ .null) : ∃ name d,
    c.toDocument = .record [(name, d)] ∧ hasSections d = false ∧ ∀ depth, Inline depth d := by
  cases c with
  | null => exact absurd rfl hc
  | bool b => exact ⟨"Bool", .bool b, rfl, rfl, fun _ => .bool b⟩
  | int n =>
    refine ⟨"Int", .ofInt n.toInt, rfl, ?_, fun _ => inline_ofInt n⟩
    rw [Document.ofInt]
    split <;> rfl
  | num x => exact ⟨"Float", .float x, rfl, rfl, fun _ => .float x⟩
  | text s => exact ⟨"Str", .text s, rfl, rfl, fun _ => .text s⟩

theorem inline_cell (c : Cell Float) : Inline (depth + 1) c.toDocument := by
  by_cases hc : c = .null
  · subst hc
    exact .text "Null"
  · obtain ⟨name, d, hcell, -, hd⟩ := exists_cell_record hc
    rw [hcell]
    exact .record (by simpa using hd depth) (by simp)

/-- The cells of a column are written on one line if one of them is empty or there are none, and in
sections else. -/
theorem cells_cases (cells : List (Cell Float)) :
    (hasSections (.list (cells.map Cell.toDocument)) = false ∧
      Inline 79 (.list (cells.map Cell.toDocument))) ∨
    Part (Sectioned (depth + 1)) (.list (cells.map Cell.toDocument)) := by
  by_cases hcells : cells ≠ [] ∧ .null ∉ cells
  · obtain ⟨hne, hnull⟩ := hcells
    right
    have hitems : ∀ cells : List (Cell Float), .null ∉ cells →
        ∃ items : List (List (String × Document)),
        cells.map Cell.toDocument = items.map Document.record ∧
          ∀ fields ∈ items, Sectioned (depth + 1) fields := by
      intro cells hnull
      induction cells with
      | nil => exact ⟨[], rfl, by simp⟩
      | cons c cells ih =>
        obtain ⟨hc, hnull⟩ := List.ne_and_not_mem_of_not_mem_cons hnull
        obtain ⟨name, d, hcell, hplain, hd⟩ := exists_cell_record hc.symm
        obtain ⟨items, heq, hall⟩ := ih hnull
        refine ⟨[(name, d)] :: items, ?_, List.forall_mem_cons.mpr ⟨?_, hall⟩⟩
        · rw [List.map_cons, hcell, heq, List.map_cons]
        · exact sectioned_plain (by simp) (by simpa using ⟨hplain, hd 79⟩)
    obtain ⟨items, heq, hall⟩ := hitems cells hnull
    refine .inr ⟨items, ?_, congrArg Document.list heq, hall⟩
    rintro rfl
    exact hne (List.map_eq_nil_iff.mp heq)
  · left
    refine ⟨?_, .list (List.forall_mem_map.mpr fun c _ => inline_cell c)⟩
    rw [hasSections, Bool.and_eq_false_iff]
    by_cases hne : cells = []
    · exact .inl (by simp [hne])
    · have hnull : .null ∈ cells := by
        by_contra hnot
        exact hcells ⟨hne, hnot⟩
      refine .inr (List.all_eq_false.mpr ⟨_, List.mem_map_of_mem hnull, ?_⟩)
      decide

/-- The fields of a column. -/
def columnFields (c : Column Float) : List (String × Document) :=
  [("name", .text c.name), ("values", .list (c.cells.map Cell.toDocument))]

theorem sectioned_column (c : Column Float) : Sectioned (depth + 2) (columnFields c) := by
  show Sectioned (depth + 2) ([("name", .text c.name)] ++ [_])
  refine sectioned_concat (by simp) (by simp) ?_ (cells_cases c.cells)
  simpa using ⟨rfl, .text c.name⟩

end Toml

open Toml

/-! ## Objects -/

namespace Stored

/-- The fields that are written of an object, if the format has a spelling for all of it. -/
def tomlFields? : Stored → Option (List (String × Document))
  | .table t =>
    some [("index", indexDocument t.times), ("columns", .list (t.columns.map Column.toDocument))]
  | .series s =>
    if s.values.any Float.isNaN then none
    else some [("name", .text s.name), ("index", indexDocument s.times),
      ("values", .list (s.values.map Series.sampleDocument))]
  | .settings s =>
    if s.nameLength < 1 <<< 63 then some (s.fields.filter (Settings.isWritten true)) else none

theorem inline_index {depth : Nat} (index : List Float) : Inline (depth + 1) (indexDocument index) :=
  .list (List.forall_mem_map.mpr fun x _ => .float x)

theorem hasSections_index (index : List Float) : hasSections (indexDocument index) = false :=
  hasSections_list (List.forall_mem_map.mpr fun _ _ => rfl)

theorem sectioned_table {depth : Nat} (t : Table Float) :
    Sectioned (depth + 3)
      [("index", indexDocument t.times), ("columns", .list (t.columns.map Column.toDocument))] := by
  show Sectioned (depth + 3) ([("index", indexDocument t.times)] ++ [_])
  refine sectioned_concat (by simp) (by simp) ?_ ?_
  · simpa using ⟨hasSections_index t.times, inline_index t.times⟩
  · by_cases hcolumns : t.columns = []
    · left
      rw [hcolumns]
      exact ⟨rfl, .list (by simp)⟩
    · refine .inr (.inr ⟨t.columns.map columnFields, by simpa using hcolumns, ?_, ?_⟩)
      · rw [List.map_map]
        rfl
      · exact List.forall_mem_map.mpr fun c _ => sectioned_column c

theorem sectioned_series {depth : Nat} {s : Series Float} (hs : ∀ x ∈ s.values, x.isNaN = false) :
    Sectioned (depth + 1) [("name", .text s.name), ("index", indexDocument s.times),
      ("values", .list (s.values.map Series.sampleDocument))] := by
  have hsample : ∀ x ∈ s.values, Series.sampleDocument x = .float x := fun x hx => by
    rw [Series.sampleDocument, hs x hx, if_neg (by decide)]
  have hplain : hasSections (.list (s.values.map Series.sampleDocument)) = false :=
    hasSections_list (List.forall_mem_map.mpr fun x hx => by rw [hsample x hx]; rfl)
  have hvalues : Inline 79 (.list (s.values.map Series.sampleDocument)) :=
    .list (List.forall_mem_map.mpr fun x hx => by rw [hsample x hx]; exact .float x)
  refine sectioned_plain (by simp) ?_
  simp only [List.forall_mem_cons, List.not_mem_nil, false_implies, implies_true, and_true]
  exact ⟨⟨rfl, .text s.name⟩, ⟨hasSections_index s.times, inline_index s.times⟩, hplain, hvalues⟩

/-- The settings that have a value are written on one line each. -/
theorem inline_settings {s : Settings Float} (hlength : s.nameLength < 1 <<< 63) :
    ∀ f ∈ s.fields, f.2 = .null ∨ hasSections f.2 = false ∧ Inline 79 f.2 := by
  have hnames : ∀ o : Option String, Document.ofOption .text o = .null ∨
      hasSections (.ofOption .text o) = false ∧ Inline 79 (.ofOption .text o) := by
    intro o
    cases o with
    | none => exact .inl rfl
    | some s => exact .inr ⟨rfl, .text s⟩
  have hshift : ∀ o : Option Float, Document.ofOption .float o = .null ∨
      hasSections (.ofOption .float o) = false ∧ Inline 79 (.ofOption .float o) := by
    intro o
    cases o with
    | none => exact .inl rfl
    | some x => exact .inr ⟨rfl, .float x⟩
  have hsignals : hasSections (.list (s.signalColumns.map .text)) = false ∧
      Inline 79 (.list (s.signalColumns.map .text)) :=
    ⟨hasSections_list (List.forall_mem_map.mpr fun _ _ => rfl),
      .list (List.forall_mem_map.mpr fun name _ => .text name)⟩
  simp only [Settings.fields, List.forall_mem_cons, List.not_mem_nil, false_implies, implies_true,
    and_true]
  exact ⟨.inr ⟨rfl, .text _⟩, .inr ⟨rfl, .bool _⟩, .inr ⟨rfl, .text _⟩, .inr hsignals,
    .inr ⟨rfl, .bool _⟩, hnames _, hnames _, .inr ⟨rfl, .natural hlength⟩, hshift _,
    .inr ⟨rfl, .text _⟩⟩

theorem sectioned_settings {depth : Nat} {s : Settings Float} (hlength : s.nameLength < 1 <<< 63) :
    Sectioned (depth + 1) (s.fields.filter (Settings.isWritten true)) := by
  have hnames : (s.fields.map (·.1)).Nodup := Settings.nodup_fieldNames
  refine sectioned_plain (hnames.sublist (List.filter_sublist.map _)) fun f hf => ?_
  obtain ⟨hf, hwritten⟩ := List.mem_filter.mp hf
  refine (inline_settings hlength f hf).resolve_left fun hnull => ?_
  rw [Settings.isWritten, hnull] at hwritten
  exact absurd hwritten (by decide)

/-- **What is written of an object is written in sections.** -/
theorem sectioned_tomlFields {object : Stored} {fields : List (String × Document)}
    (h : object.tomlFields? = some fields) : Sectioned 3 fields := by
  cases object with
  | table t =>
    obtain rfl := Option.some.inj h
    exact sectioned_table t
  | series s =>
    rw [tomlFields?] at h
    split at h
    · exact absurd h (by simp)
    · rename_i hnan
      obtain rfl := Option.some.inj h
      exact sectioned_series fun x hx =>
        Bool.eq_false_iff.mpr fun hx' => hnan (List.any_eq_true.mpr ⟨x, hx, hx'⟩)
  | settings s =>
    rw [tomlFields?] at h
    split at h
    · rename_i hlength
      obtain rfl := Option.some.inj h
      exact sectioned_settings hlength
    · exact absurd h (by simp)

/-- **What the format has a spelling for.** A missing sample or a length that is too large leaves the
object without one. -/
theorem spellable?_payload (object : Stored) :
    spellable? object.payload = object.tomlFields?.map .record := by
  cases object with
  | table t =>
    have hsectioned : Sectioned 3 _ := sectioned_table t
    exact hsectioned.spellable?_eq
  | series s =>
    rw [tomlFields?]
    split
    · rename_i hnan
      obtain ⟨x, hx, hmissing⟩ := List.any_eq_true.mp hnan
      have hsample : spellable? (Series.sampleDocument x) = none := by
        rw [Series.sampleDocument, if_pos hmissing, spellable?]
      have hvalues := spellable?_list_eq_none (List.mem_map_of_mem hx) hsample
      exact spellable?_record_eq_none (f := ("values", _)) (by simp) (by simp) hvalues
    · rename_i hnan
      have hsectioned : Sectioned 1 _ := sectioned_series fun x hx =>
        Bool.eq_false_iff.mpr fun hx' => hnan (List.any_eq_true.mpr ⟨x, hx, hx'⟩)
      exact hsectioned.spellable?_eq
  | settings s =>
    rw [tomlFields?]
    split
    · rename_i hlength
      exact spellable?_record fun f hf => (inline_settings hlength f hf).imp_right fun h =>
        h.2.spellable?_eq
    · rename_i hlength
      refine spellable?_record_eq_none (f := ("comm_max_len", .natural s.nameLength)) ?_ (by simp) ?_
      · simp
      · rw [spellable?, if_neg hlength]

/-! ## Envelopes -/

/-- The fields of an envelope. -/
def envelopeFields (kind : ObjectKind) (fields : List (String × Document)) :
    List (String × Document) :=
  [("format_version", .natural formatVersion), ("kind", .text kind.tag), ("payload", .record fields)]

theorem sectioned_envelope {kind : ObjectKind} {fields : List (String × Document)}
    (h : Sectioned 3 fields) : Sectioned 4 (envelopeFields kind fields) := by
  show Sectioned 4 ([("format_version", .natural formatVersion), ("kind", .text kind.tag)] ++ [_])
  refine sectioned_concat (by simp) (by simp) ?_ (.inr (.inl ⟨fields, rfl, h⟩))
  simp only [List.forall_mem_cons, List.not_mem_nil, false_implies, implies_true, and_true]
  exact ⟨⟨rfl, .natural (by decide)⟩, rfl, .text kind.tag⟩

theorem spellable?_envelopeOf {payload : Document} (kind : ObjectKind) (hnull : payload ≠ .null) :
    spellable? (envelopeOf kind payload) = (spellable? payload).map (envelopeOf kind) := by
  have hversion : spellable? (.natural formatVersion) = some (.natural formatVersion) := by
    rw [spellable?, if_pos (by decide)]
  show (spellableEntries? [(.text "format_version", .natural formatVersion),
    (.text "kind", .text kind.tag), (.text "payload", payload)]).map Document.map = _
  rw [spellableEntries?.eq_3 _ _ _ (by simp), spellableEntries?.eq_3 _ _ _ (by simp),
    spellableEntries?.eq_3 _ _ _ hnull, hversion, spellable?]
  cases spellable? payload <;> rfl

/-- **The envelope of an object is written when the object is.** -/
theorem write?_envelope (object : Stored) : Toml.write? object.envelope =
    object.tomlFields?.map fun fields => documentText (envelopeFields object.kind fields) := by
  have hnull : object.payload ≠ .null := by
    cases object <;> simp [payload, Table.toDocument, Series.toDocument, Settings.toDocument,
      Document.record]
  have henvelope : spellable? object.envelope =
      (object.tomlFields?.map .record).map (envelopeOf object.kind) := by
    rw [envelope_eq, spellable?_envelopeOf object.kind hnull, spellable?_payload]
  cases hfields : object.tomlFields? with
  | none =>
    rw [hfields] at henvelope
    rw [Toml.write?, henvelope]
    rfl
  | some fields =>
    rw [hfields] at henvelope
    exact write?_eq_documentText henvelope (sectioned_envelope (sectioned_tomlFields hfields))

/-! ## Bytes -/

/-- The bytes of an object of which some fields are written. -/
def tomlBytes (kind : ObjectKind) (fields : List (String × Document)) : List UInt8 :=
  Utf8.encode (documentText (envelopeFields kind fields))

/-- **Storing an object** writes its fields, or is refused where there is no spelling. -/
theorem toBytes_toml (object : Stored) : object.toBytes .toml =
    match object.tomlFields? with
    | some fields => .ok (tomlBytes object.kind fields)
    | none => .error (.encode object.kind) := by
  have hwrite : Encoding.toml.write? object.envelope =
      object.tomlFields?.map (tomlBytes object.kind) := by
    show (Toml.write? object.envelope).map Utf8.encode = _
    rw [write?_envelope, Option.map_map]
    rfl
  rw [toBytes, hwrite]
  cases object.tomlFields? <;> rfl

/-- **The bytes of an object are read as its envelope**, with the fields that were written. -/
theorem read?_toml {object : Stored} {fields : List (String × Document)}
    (h : object.tomlFields? = some fields) :
    Encoding.toml.read? (tomlBytes object.kind fields) =
      some ((envelopeOf object.kind (.record fields)).renumber renumbering) := by
  have hsectioned : Sectioned 4 (envelopeFields object.kind fields) :=
    sectioned_envelope (sectioned_tomlFields h)
  have hread := read?_documentText hsectioned (by decide)
  show (Utf8.text? _).bind Toml.read? = _
  rw [tomlBytes, Utf8.text?_encode, Option.bind_some, hread]
  rfl

/-- Reading the bytes of an object reads the written fields if the kind is the right one. -/
theorem ofBytes_toml {object : Stored} {fields : List (String × Document)}
    (h : object.tomlFields? = some fields) (kind : ObjectKind) :
    Stored.ofBytes kind .toml (tomlBytes object.kind fields) =
      if kind = object.kind then
        orDecodeFault (Stored.ofPayload? Encoding.toml.dialect object.kind
          ((Document.record fields).renumber renumbering))
      else .error (.kindMismatch kind.tag object.kind.tag) :=
  Stored.ofBytes_of_read? keeps_renumbering (read?_toml h) kind

end Stored

end StepSignal
