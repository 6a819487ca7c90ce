import StepSignal.Proofs.Document.Choices
import StepSignal.Proofs.MessagePack

/-!
# Objects stored as MessagePack come back

Every table, series and settings can be stored as MessagePack and is read back as it was, missing
and infinite values included, whatever bytes stand behind it. The format has four bytes for the size
of a text or a list, and `SizesFit` says that those of an object can be written.
-/

namespace StepSignal

namespace MessagePack

/-- Whether the size of a text can be written. -/
def TextFits (s : String) : Prop := (Utf8.encode s.toList).length < UInt32.size

instance (s : String) : Decidable (TextFits s) := inferInstanceAs (Decidable (_ < _))

/-! ## Documents that fit -/

variable {depth : Nat}

theorem Fits.record {fields : List (String × Document)} (hsize : fields.length < UInt32.size)
    (hnames : ∀ f ∈ fields, TextFits f.1) (hvalues : ∀ f ∈ fields, Fits depth f.2) :
    Fits (depth + 1) (.record fields) := by
  refine .map (by rwa [List.length_map]) ?_ ?_
  · intro e he
    obtain ⟨f, hf, rfl⟩ := List.mem_map.mp he
    exact .text (hnames f hf)
  · intro e he
    obtain ⟨f, hf, rfl⟩ := List.mem_map.mp he
    exact hvalues f hf

theorem Fits.choice {name : String} {payload : Document} (hname : TextFits name)
    (hpayload : Fits depth payload) : Fits (depth + 1) (.choice name payload) := by
  show Fits (depth + 1) (.record [(name, payload)])
  exact .record (by simp [UInt32.size]) (by simpa using hname) (by simpa using hpayload)

theorem Fits.map_list {β : Type} {xs : List β} {write : β → Document}
    (hsize : xs.length < UInt32.size) (h : ∀ x ∈ xs, Fits depth (write x)) :
    Fits (depth + 1) (.list (xs.map write)) :=
  .list (by rwa [List.length_map]) (List.forall_mem_map.mpr h)

theorem Fits.ofInt (n : Int64) : Fits depth (.ofInt n.toInt) := by
  have hhigh := n.toInt_le
  have htop : Int64.maxValue.toInt < (UInt64.size : Int) := by decide
  rw [Document.ofInt]
  split
  · exact .natural (by omega)
  · exact .integer n.minValue_le_toInt (by omega)

theorem Fits.ofOption {β : Type} {write : β → Document} {o : Option β}
    (h : ∀ b ∈ o, Fits depth (write b)) : Fits depth (.ofOption write o) := by
  cases o with
  | none => exact .null
  | some b => exact h b rfl

theorem fits_cell {c : Cell Float} (htext : ∀ s, c = .text s → TextFits s) :
    Fits (depth + 1) c.toDocument := by
  cases c with
  | null => exact .text (by decide)
  | bool b => exact .choice (by decide) (.bool b)
  | int n => exact .choice (by decide) (.ofInt n)
  | num x => exact .choice (by decide) (.float x)
  | text s => exact .choice (by decide) (.text (htext s rfl))

end MessagePack

open MessagePack

/-! ## Objects that fit -/

/-- The sizes of an object fit into the four bytes that the format has for them. -/
def Stored.SizesFit : Stored → Prop
  | .table t =>
    t.names.length < UInt32.size ∧ t.rows.length < UInt32.size ∧
      (∀ name ∈ t.names, TextFits name) ∧
      ∀ row ∈ t.rows, ∀ s, .text s ∈ row.value → TextFits s
  | .series s => s.samples.length < UInt32.size ∧ TextFits s.name
  | .settings s =>
    s.signalColumns.length < UInt32.size ∧
      (∀ name ∈ s.durationColumn :: s.signalColumns, TextFits name) ∧
      (∀ name ∈ s.pidColumn, TextFits name) ∧ ∀ name ∈ s.commColumn, TextFits name

namespace MessagePack

theorem fits_table {t : Table Float} (h : (Stored.table t).SizesFit) :
    Fits (depth + 5) t.toDocument := by
  obtain ⟨hnames, hrows, hname, hcells⟩ := h
  have htimes : Fits (depth + 4) (indexDocument t.times) :=
    .map_list (by rwa [Table.times, Stamped.length_times]) fun x _ => .float x
  have hcolumns : Fits (depth + 4) (.list (t.columns.map Column.toDocument)) := by
    refine .map_list (by simpa [Table.columns] using hnames) fun c hc => ?_
    obtain ⟨⟨name, i⟩, hmem, rfl⟩ := List.mem_map.mp hc
    have htext : TextFits name := hname name (List.fst_mem_of_mem_zipIdx hmem)
    have hcolumn : Fits (depth + 2) (.list ((t.cellsAt i).map Cell.toDocument)) := by
      refine .map_list (by simpa [Table.cellsAt] using hrows) fun cell hcell => ?_
      refine fits_cell fun s hs => ?_
      obtain ⟨row, hrow, hmem⟩ := Table.mem_row_of_cellsAt (hs ▸ hcell) (by simp)
      exact hcells row hrow s hmem
    exact .record (by simp [UInt32.size]) (by simp; decide) (by simpa using ⟨.text htext, hcolumn⟩)
  exact .record (by simp [UInt32.size]) (by simp; decide) (by simpa using ⟨htimes, hcolumns⟩)

theorem fits_series {s : Series Float} (h : (Stored.series s).SizesFit) :
    Fits (depth + 5) s.toDocument := by
  obtain ⟨hsamples, hname⟩ := h
  have htimes : Fits (depth + 4) (indexDocument s.times) :=
    .map_list (by rwa [Series.times, Stamped.length_times]) fun x _ => .float x
  have hvalues : Fits (depth + 4) (.list (s.values.map Series.sampleDocument)) := by
    refine .map_list (by rwa [Series.values, List.length_map]) fun x _ => ?_
    rw [Series.sampleDocument]
    split
    · exact .null
    · exact .float x
  exact .record (by simp [UInt32.size]) (by simp; decide) (by simpa using ⟨.text hname, htimes, hvalues⟩)

theorem fits_settings {s : Settings Float} (hvalid : (Stored.settings s).Valid)
    (h : (Stored.settings s).SizesFit) : Fits (depth + 5) s.toDocument := by
  obtain ⟨hsize, hnames, hpid, hcomm⟩ := h
  obtain ⟨hduration, hsignals⟩ := List.forall_mem_cons.mp hnames
  have hrule : TextFits s.edgeRule.name := by cases s.edgeRule <;> decide
  have hkeep : TextFits s.keep.name := by cases s.keep <;> decide
  have hcolumns : Fits (depth + 4) (.list (s.signalColumns.map .text)) :=
    .map_list hsize fun name hname => .text (hsignals name hname)
  rw [Settings.toDocument_eq]
  refine .record (by simp [Settings.fields]; decide) (by simp [Settings.fields]; decide) ?_
  simp only [Settings.fields, List.forall_mem_cons, List.not_mem_nil, false_implies, implies_true,
    and_true]
  exact ⟨.text hrule, .bool _, .text hduration, hcolumns, .bool _,
    .ofOption fun name hname => .text (hpid name hname),
    .ofOption fun name hname => .text (hcomm name hname), .natural hvalid,
    .ofOption fun x _ => .float x, .text hkeep⟩

/-- The envelope of an object fits when its sizes do. -/
theorem fits_envelope {object : Stored} (hvalid : object.Valid) (h : object.SizesFit) :
    Fits (depth + 6) object.envelope := by
  have hpayload : Fits (depth + 5) object.payload := by
    cases object with
    | table t => exact fits_table h
    | series s => exact fits_series h
    | settings s => exact fits_settings hvalid h
  have htag : TextFits object.kind.tag := by cases object.kind <;> decide
  exact .record (by simp [UInt32.size]) (by simp; decide)
    (by simpa using ⟨.natural (by decide), .text htag, hpayload⟩)

end MessagePack

/-! ## The round trip -/

/-- The envelope is read back, whatever bytes stand behind it. -/
theorem Stored.read?_messagePack {object : Stored} (hvalid : object.Valid) (h : object.SizesFit)
    (rest : List UInt8) :
    Encoding.messagePack.read? (MessagePack.write object.envelope ++ rest) =
      some object.envelope := by
  have hfits : Fits (1017 + 6) object.envelope := fits_envelope hvalid h
  have hlimit : nestingLimit = 1017 + 6 := rfl
  show MessagePack.read? _ = _
  rw [MessagePack.read?, hlimit, hfits.value?_write, Option.map_some]

/-- The object of a payload whose numbers are all kept. -/
theorem Stored.ofPayload?_payload {object : Stored} (hvalid : object.Valid) (dialect : Dialect) :
    Stored.ofPayload? dialect object.kind object.payload = some object := by
  have hkeeps := Document.Renumbering.keeps_same
  rw [← Document.renumber_same object.payload]
  cases object with
  | table t =>
    exact congrArg (Option.map table) (Table.ofDocument?_toDocument hkeeps dialect hvalid fun _ _ _ _ => rfl)
  | series s =>
    exact congrArg (Option.map series) (Series.ofDocument?_toDocument hkeeps dialect hvalid fun _ _ _ => rfl)
  | settings s =>
    have hback := Settings.ofDocument?_writtenDocument hkeeps dialect false hvalid fun _ _ => rfl
    rw [Settings.writtenDocument_false] at hback
    exact congrArg (Option.map settings) hback

/-- Reading an envelope of a format that keeps all numbers. -/
theorem Stored.ofBytes_of_read?_eq {e : Encoding} {bytes : List UInt8} {kind : ObjectKind}
    {payload : Document} (h : e.read? bytes = some (envelopeOf kind payload)) (kind' : ObjectKind) :
    Stored.ofBytes kind' e bytes =
      if kind' = kind then orDecodeFault (Stored.ofPayload? e.dialect kind payload)
      else .error (.kindMismatch kind'.tag kind.tag) := by
  have hsame : e.read? bytes = some ((envelopeOf kind payload).renumber .same) := by
    rw [h, Document.renumber_same]
  rw [Stored.ofBytes_of_read? Document.Renumbering.keeps_same hsame, Document.renumber_same]

/-- Reading the bytes of an object gives it back if the kind is the right one, whatever bytes stand
behind them. -/
theorem Stored.ofBytes_messagePack {object : Stored} (hvalid : object.Valid) (h : object.SizesFit)
    (kind : ObjectKind) (rest : List UInt8) :
    Stored.ofBytes kind .messagePack (MessagePack.write object.envelope ++ rest) =
      if kind = object.kind then .ok object
      else .error (.kindMismatch kind.tag object.kind.tag) := by
  rw [Stored.ofBytes_of_read?_eq (Stored.read?_messagePack hvalid h rest),
    Stored.ofPayload?_payload hvalid]
  rfl

end StepSignal
