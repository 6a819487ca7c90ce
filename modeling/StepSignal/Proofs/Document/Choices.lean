import StepSignal.Archive.Envelope
import StepSignal.Proofs.Document.Data
import StepSignal.Proofs.Outcome

/-!
# Settings and envelopes come back from their documents

Settings are read like tables and series. A format that has no word for an absent value leaves the
field out, and a setting that is left out is read as the standard one.

An envelope gives its kind away before anything is said about the object: reading it as another kind
is refused whatever the object is, and reading it as its own kind reads the object.
-/

namespace StepSignal

open Document (Renumbering)

variable {r : Renumbering} (hr : r.Keeps) (dialect : Dialect)

/-! ## Settings -/

theorem EdgeRule.ofDocument?_name (rule : EdgeRule) :
    EdgeRule.ofDocument? dialect (.text rule.name) = some rule := by
  cases rule <;> rfl

theorem Keep.ofDocument?_name (keep : Keep) :
    Keep.ofDocument? dialect (.text keep.name) = some keep := by
  cases keep <;> rfl

namespace Settings

/-- The fields of the document of settings. -/
def fields (s : Settings Float) : List (String × Document) :=
  [("edge_method", .text s.edgeRule.name),
    ("clip_window", .bool s.clipWindow),
    ("delta_column", .text s.durationColumn),
    ("signal_columns", .list (s.signalColumns.map .text)),
    ("compress_init", .bool s.compressInitial),
    ("pid_column", .ofOption .text s.pidColumn),
    ("comm_column", .ofOption .text s.commColumn),
    ("comm_max_len", .natural s.nameLength),
    ("max_shift", .ofOption .float s.maxShift),
    ("dedup_keep", .text s.keep.name)]

theorem toDocument_eq (s : Settings Float) : s.toDocument = .record s.fields := rfl

theorem nodup_fieldNames : fieldNames.Nodup := by simp [fieldNames]

/-- Whether a format writes a field: it may drop those without a value. -/
def isWritten (drops : Bool) (field : String × Document) : Bool :=
  match field.2 with
  | .null => !drops
  | _ => true

theorem isWritten_of_ne {drops : Bool} {name : String} {d : Document} (h : d ≠ .null) :
    isWritten drops (name, d) = true := by
  unfold isWritten
  split
  · contradiction
  · rfl

/-- The document of settings in a format that may drop the fields without a value. -/
def writtenDocument (s : Settings Float) (drops : Bool) : Document :=
  .record (s.fields.filter (isWritten drops))

theorem writtenDocument_false (s : Settings Float) : s.writtenDocument false = s.toDocument := by
  have hall : s.fields.filter (isWritten false) = s.fields := by
    refine List.filter_eq_self.mpr fun f _ => ?_
    unfold isWritten
    split <;> rfl
  rw [writtenDocument, hall, toDocument_eq]

/-- The settings that come back: those that are standard stand in for the dropped ones. -/
def comesBack (s : Settings Float) (drops : Bool) : Settings Float :=
  if drops then
    { s with
      pidColumn := s.pidColumn.or (some "pid")
      commColumn := s.commColumn.or (some "comm") }
  else s

variable {s : Settings Float}

theorem signalColumns_renumber :
    (Document.renumber r (.list (s.signalColumns.map .text))).list? Document.text? =
      some s.signalColumns := by
  rw [Document.renumber_list, List.map_map, Document.list?, List.mapM_map]
  refine Document.mapM_eq_self fun name _ => ?_
  show (Document.renumber r (.text name)).text? = _
  rw [Document.renumber_text]
  rfl

/-- A value that may be absent, read from a field that may have been dropped. -/
theorem orElse_ofOption {β : Type} {drops : Bool} {name : String} {write : β → Document}
    {read : Document → Option β} {o absent : Option β} {fields : Document.Fields} {i : Nat}
    (hget : fields.get? i = if isWritten drops (name, .ofOption write o) then
      some ((Document.ofOption write o).renumber r) else none)
    (h : ∀ b ∈ o, write b ≠ .null ∧ (write b).renumber r ≠ .null ∧
      read ((write b).renumber r) = some b) :
    fields.orElse i (Document.option? read) absent = some (if drops then o.or absent else o) := by
  rw [Document.Fields.orElse, hget]
  cases o with
  | none => cases drops <;> simp [isWritten, Document.ofOption, Document.option?]
  | some b =>
    obtain ⟨hwritten, hnull, hread⟩ := h b rfl
    rw [Document.ofOption, if_pos (isWritten_of_ne hwritten)]
    show Document.option? read ((write b).renumber r) = _
    rw [Document.option?.eq_2 _ _ hnull, hread]
    cases drops <;> rfl

theorem orElse_ofText {drops : Bool} {name : String} {o absent : Option String}
    {fields : Document.Fields} {i : Nat}
    (hget : fields.get? i = if isWritten drops (name, .ofOption .text o) then
      some ((Document.ofOption .text o).renumber r) else none) :
    fields.orElse i (Document.option? Document.text?) absent =
      some (if drops then o.or absent else o) :=
  orElse_ofOption hget fun s _ => by simp [Document.text?]

include hr in
/-- **Settings come back from their document** when the largest shift is kept, apart from absent
columns that the format dropped. -/
theorem ofDocument?_writtenDocument (drops : Bool) (hlength : s.nameLength < UInt64.size)
    (hfloat : ∀ x ∈ s.maxShift, r.float x = .float x) :
    Settings.ofDocument? dialect ((s.writtenDocument drops).renumber r) =
      some (s.comesBack drops) := by
  have hnames : fieldNames = s.fields.map (·.1) := rfl
  rw [writtenDocument, Document.renumber_record, Settings.ofDocument?, hnames,
    Document.fields?_kept dialect (isWritten drops) (Document.renumber r)
      (hnames ▸ nodup_fieldNames), Option.bind_eq_bind, Option.bind_some]
  generalize hfields : (⟨true, s.fields.map fun f =>
    if isWritten drops f then some (f.2.renumber r) else none⟩ : Document.Fields) = fields
  -- a field that is always there is the one that was written
  have hrule : fields.orElse 0 (EdgeRule.ofDocument? dialect) .inclusive = some s.edgeRule := by
    subst hfields
    exact (congrArg _ (Document.renumber_text r _)).trans (EdgeRule.ofDocument?_name dialect _)
  have hclip : fields.orElse 1 Document.bool? true = some s.clipWindow := by
    subst hfields
    exact congrArg Document.bool? (Document.renumber_bool r _)
  have hduration : fields.orElse 2 Document.text? defaultDurationColumn =
      some s.durationColumn := by
    subst hfields
    exact congrArg Document.text? (Document.renumber_text r _)
  have hsignals : fields.orElse 3 (Document.list? Document.text?) [] = some s.signalColumns := by
    subst hfields
    exact signalColumns_renumber
  have hcompress : fields.orElse 4 Document.bool? false = some s.compressInitial := by
    subst hfields
    exact congrArg Document.bool? (Document.renumber_bool r _)
  have hlength : fields.orElse 7 (Document.natBelow? UInt64.size) defaultNameLength =
      some s.nameLength := by
    subst hfields
    exact Document.natBelow?_of_int? (by
      rw [Document.renumber_natural]
      exact hr.natural s.nameLength hlength) hlength
  have hkeep : fields.orElse 9 (Keep.ofDocument? dialect) .first = some s.keep := by
    subst hfields
    exact (congrArg _ (Document.renumber_text r _)).trans (Keep.ofDocument?_name dialect _)
  have hpid : fields.orElse 5 (Document.option? Document.text?) (some "pid") =
      some (if drops then s.pidColumn.or (some "pid") else s.pidColumn) := by
    subst hfields
    exact orElse_ofText rfl
  have hcomm : fields.orElse 6 (Document.option? Document.text?) (some "comm") =
      some (if drops then s.commColumn.or (some "comm") else s.commColumn) := by
    subst hfields
    exact orElse_ofText rfl
  have hshift : fields.orElse 8 (Document.option? Document.float?) none = some s.maxShift := by
    subst hfields
    refine (orElse_ofOption rfl fun x hx => ?_).trans (by simp)
    rw [Document.renumber_float, hfloat x hx]
    exact ⟨by simp, by simp, rfl⟩
  simp only [hrule, hclip, hduration, hsignals, hcompress, hpid, hcomm, hlength, hshift, hkeep]
  cases drops <;> rfl

end Settings

/-! ## Envelopes -/

/-- What every object satisfies that this library holds: tables and series are valid, and the length
of names in settings is a machine word. -/
def Stored.Valid : Stored → Prop
  | .table t => t.Valid
  | .series s => s.Valid
  | .settings s => s.nameLength < UInt64.size

/-- The envelope of a document of an object. -/
def envelopeOf (kind : ObjectKind) (payload : Document) : Document :=
  .record [
    ("format_version", .natural formatVersion),
    ("kind", .text kind.tag),
    ("payload", payload)]

theorem Stored.envelope_eq (object : Stored) :
    object.envelope = envelopeOf object.kind object.payload := rfl

theorem ObjectKind.tag_inj {a b : ObjectKind} : a.tag = b.tag ↔ a = b := by
  cases a <;> cases b <;> decide

include hr in
theorem EnvelopeHeader.ofDocument?_envelopeOf (kind : ObjectKind) (payload : Document) :
    EnvelopeHeader.ofDocument? dialect ((envelopeOf kind payload).renumber r) =
      some ⟨formatVersion, kind.tag⟩ := by
  have hversion : Document.natBelow? UInt32.size (r.natural formatVersion) = some formatVersion :=
    Document.natBelow?_of_int? (hr.natural formatVersion (by decide)) (by decide)
  simp only [envelopeOf, Document.renumber_record, List.map_cons, List.map_nil,
    Document.renumber_natural, Document.renumber_text]
  rw [EnvelopeHeader.ofDocument?, Document.fields?_record dialect (by decide) (by simp)]
  simp [Document.Fields.required, Document.Fields.get?, List.lookup, Document.text?, hversion]

theorem envelopedObject?_envelopeOf (kind : ObjectKind) (payload : Document)
    (kind' : ObjectKind) :
    envelopedObject? dialect kind' ((envelopeOf kind payload).renumber r) =
      Stored.ofPayload? dialect kind' (payload.renumber r) := by
  simp only [envelopeOf, Document.renumber_record, List.map_cons, List.map_nil]
  rw [envelopedObject?, Document.fields?_record dialect (by decide) (by simp)]
  simp [Document.Fields.required, Document.Fields.get?, List.lookup]

include hr in
/-- **Reading an envelope** refuses every kind but its own, for which it reads the object. -/
theorem Stored.ofBytes_of_read? {e : Encoding} {bytes : List UInt8} {kind : ObjectKind}
    {payload : Document} (h : e.read? bytes = some ((envelopeOf kind payload).renumber r))
    (kind' : ObjectKind) : Stored.ofBytes kind' e bytes =
      if kind' = kind then
        orDecodeFault (Stored.ofPayload? e.dialect kind (payload.renumber r))
      else .error (.kindMismatch kind'.tag kind.tag) := by
  rw [Stored.ofBytes, h]
  simp only [orDecodeFault, ok_bind, EnvelopeHeader.ofDocument?_envelopeOf hr,
    envelopedObject?_envelopeOf, if_true]
  by_cases hkind : kind' = kind
  · rw [if_pos hkind, hkind, if_pos rfl]
  · rw [if_neg hkind, if_neg fun htag => hkind (ObjectKind.tag_inj.mp htag.symm)]
    rfl

end StepSignal
