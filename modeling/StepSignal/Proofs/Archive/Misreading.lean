import StepSignal.Proofs.Archive.Json
import StepSignal.Proofs.Archive.MessagePack
import StepSignal.Proofs.Archive.Toml

/-!
# Stored objects are not misread

The bytes of an object tell by their start which encoding they have: MessagePack starts with a byte
that is no character, JSON with a brace, and TOML with the name of the version. What another encoding
makes of that start is no header, whatever the object is. In the encoding that the object was stored
in, the header names its kind before the payload is looked at.
-/

namespace StepSignal

/-! ## Headers -/

/-- The header that some bytes have in an encoding. -/
def Encoding.header? (e : Encoding) (bytes : List UInt8) : Option EnvelopeHeader :=
  (e.read? bytes).bind (EnvelopeHeader.ofDocument? e.dialect)

/-- Bytes without a header are no object. -/
theorem Stored.ofBytes_of_header?_eq_none {e : Encoding} {bytes : List UInt8}
    (h : e.header? bytes = none) (kind : ObjectKind) :
    Stored.ofBytes kind e bytes = .error .decode := by
  rw [Encoding.header?] at h
  rw [Stored.ofBytes]
  cases hread : e.read? bytes with
  | none => rfl
  | some d =>
    rw [hread, Option.bind_some] at h
    simp only [orDecodeFault, ok_bind, h]
    rfl

theorem Encoding.header?_of_read?_eq_none {e : Encoding} {bytes : List UInt8}
    (h : e.read? bytes = none) : e.header? bytes = none := by
  rw [header?, h, Option.bind_none]

/-! ## The start of the bytes -/

/-- A byte below 0x80 is a whole number of MessagePack, and that has no header. -/
theorem MessagePack.header?_low {b : UInt8} (hb : b < 0x80) (rest : List UInt8) :
    Encoding.messagePack.header? (b :: rest) = none := by
  have hhead : head? (b :: rest) = some (.value (.natural b.toNat), rest) := if_pos hb
  have hread : Encoding.messagePack.read? (b :: rest) = some (.natural b.toNat) := by
    show (value? nestingLimit (b :: rest)).map (·.1) = _
    rw [value?_of_head? hhead, Option.map_some]
  rw [Encoding.header?, hread]
  rfl

/-- A text of JSON does not start with a byte outside of every character. -/
theorem Json.read?_outside (glyphs : List Glyph) : read? (none :: glyphs) = none := by
  rw [read?, tokens?.eq_2]
  rfl

/-- Nor with the name of the version: no word of JSON starts like it. -/
theorem Json.read?_version (glyphs : List Glyph) : read? (some 'f' :: some 'o' :: glyphs) = none := by
  rw [read?, tokens?.eq_3]
  rfl

/-- A text of TOML does not start with a brace. -/
theorem Toml.read?_brace (cs : List Char) : read? ('\x7b' :: cs) = none := rfl

namespace Stored

open MessagePack

theorem messagePack_start (object : Stored) :
    ∃ more, MessagePack.write object.envelope = 0x83 :: more := ⟨_, rfl⟩

theorem jsonText_start (object : Stored) :
    ∃ more, Json.write Json.indented 0 object.envelope = '\x7b' :: more := ⟨_, rfl⟩

theorem tomlText_start (kind : ObjectKind) (fields : List (String × Document)) :
    ∃ more, Toml.documentText (envelopeFields kind fields) = 'f' :: 'o' :: more := ⟨_, rfl⟩

/-! ## Other encodings -/

/-- An object of MessagePack has a header in no other encoding. -/
theorem header?_messagePack (object : Stored) {e : Encoding} (he : e ≠ .messagePack) :
    e.header? (MessagePack.write object.envelope) = none := by
  obtain ⟨more, hbytes⟩ := object.messagePack_start
  have hdecode : Utf8.decode (0x83 :: more) = none :: Utf8.decode more :=
    Utf8.decode_further (by decide) (by decide) more
  rw [hbytes]
  apply Encoding.header?_of_read?_eq_none
  cases e with
  | json =>
    show Json.read? (Utf8.decode (0x83 :: more)) = none
    rw [hdecode, Json.read?_outside]
  | messagePack => exact absurd rfl he
  | toml =>
    show (Utf8.text? (0x83 :: more)).bind Toml.read? = none
    rw [Utf8.text?, hdecode]
    rfl

/-- An object of JSON has a header in no other encoding. -/
theorem header?_json (object : Stored) {e : Encoding} (he : e ≠ .json) :
    e.header? object.jsonBytes = none := by
  obtain ⟨more, htext⟩ := object.jsonText_start
  rw [jsonBytes, htext]
  cases e with
  | json => exact absurd rfl he
  | messagePack => exact MessagePack.header?_low (by decide) (Utf8.encode more)
  | toml =>
    apply Encoding.header?_of_read?_eq_none
    show (Utf8.text? (Utf8.encode ('\x7b' :: more))).bind Toml.read? = none
    rw [Utf8.text?_encode, Option.bind_some, Toml.read?_brace]

/-- An object of TOML has a header in no other encoding. -/
theorem header?_toml (kind : ObjectKind) (fields : List (String × Document)) {e : Encoding}
    (he : e ≠ .toml) : e.header? (tomlBytes kind fields) = none := by
  obtain ⟨more, htext⟩ := tomlText_start kind fields
  rw [tomlBytes, htext]
  cases e with
  | json =>
    apply Encoding.header?_of_read?_eq_none
    show Json.read? (Utf8.decode (Utf8.encode ('f' :: 'o' :: more))) = none
    rw [Utf8.decode_encode]
    exact Json.read?_version (more.map some)
  | messagePack => exact MessagePack.header?_low (by decide) (Utf8.encode ('o' :: more))
  | toml => exact absurd rfl he

/-! ## Other kinds -/

/-- The fields of a header are read before the payload, whatever its bytes are. -/
theorem value?_envelopeOf (depth : Nat) (kind : ObjectKind) (payload : Document) :
    value? (depth + 1) (write (envelopeOf kind payload)) =
      (value? depth (write payload)).map fun (d, rest) => (envelopeOf kind d, rest) := by
  have htext : ∀ (s : String) (rest : List UInt8), TextFits s →
      value? depth (writeText s ++ rest) = some (.text s, rest) :=
    fun s rest hs => value?_of_head? (head?_writeText hs rest) depth
  have hversion : ∀ rest : List UInt8, value? depth (writeNatural formatVersion ++ rest) =
      some (.natural formatVersion, rest) :=
    fun rest => value?_of_head? (head?_writeNatural (by decide) rest) depth
  have htag : TextFits kind.tag := by cases kind <;> decide
  have hbytes : write (envelopeOf kind payload) = writeMapSize 3 ++
      (writeText "format_version" ++ (writeNatural formatVersion ++
        (writeText "kind" ++ (writeText kind.tag ++ (writeText "payload" ++ write payload))))) := by
    simp [envelopeOf, Document.record, write, writeEntries]
  rw [hbytes, value?, head?_writeMapSize (by decide)]
  simp only [entries?, htext "format_version" _ (by decide), hversion, htext "kind" _ (by decide),
    htext _ _ htag, htext "payload" _ (by decide), Option.bind_eq_bind, Option.bind_some]
  cases value? depth (write payload) <;> rfl

/-- Objects of MessagePack are only read as their own kind, however large they are. -/
theorem kind_of_ofBytes_messagePack {object other : Stored} {kind : ObjectKind}
    (h : Stored.ofBytes kind .messagePack (write object.envelope) = .ok other) :
    kind = object.kind := by
  have hlimit : nestingLimit = 1022 + 1 := rfl
  have hread : Encoding.messagePack.read? (write object.envelope) =
      (value? 1022 (write object.payload)).map fun (d, _) => envelopeOf object.kind d := by
    show read? _ = _
    rw [read?, hlimit, envelope_eq, value?_envelopeOf, Option.map_map]
    rfl
  cases hpayload : value? 1022 (write object.payload) with
  | none =>
    rw [hpayload, Option.map_none] at hread
    rw [ofBytes_of_header?_eq_none (Encoding.header?_of_read?_eq_none hread)] at h
    exact absurd h (by simp)
  | some found =>
    rw [hpayload, Option.map_some] at hread
    rw [ofBytes_of_read?_eq hread] at h
    split at h
    · assumption
    · exact absurd h (by simp)

/-! ## Stored objects -/

/-- The bytes that an object is stored as. -/
theorem toBytes_cases {object : Stored} {e : Encoding} {bytes : List UInt8}
    (h : object.toBytes e = .ok bytes) :
    (e = .json ∧ bytes = object.jsonBytes) ∨
    (e = .messagePack ∧ bytes = write object.envelope) ∨
    ∃ fields, e = .toml ∧ object.tomlFields? = some fields ∧
      bytes = tomlBytes object.kind fields := by
  cases e with
  | json => exact .inl ⟨rfl, (Except.ok.inj h).symm⟩
  | messagePack => exact .inr (.inl ⟨rfl, (Except.ok.inj h).symm⟩)
  | toml =>
    rw [toBytes_toml] at h
    cases hfields : object.tomlFields? with
    | none =>
      rw [hfields] at h
      exact absurd h (by simp)
    | some fields =>
      rw [hfields] at h
      exact .inr (.inr ⟨fields, rfl, rfl, (Except.ok.inj h).symm⟩)

section

variable {object : Stored} {e e' : Encoding} {bytes : List UInt8} {kind : ObjectKind}

/-- The bytes of an object have a header in no other encoding. -/
theorem header?_other (hbytes : object.toBytes e = .ok bytes) (he : e' ≠ e) :
    e'.header? bytes = none := by
  obtain ⟨rfl, rfl⟩ | ⟨rfl, rfl⟩ | ⟨fields, rfl, -, rfl⟩ := toBytes_cases hbytes
  · exact object.header?_json he
  · exact object.header?_messagePack he
  · exact header?_toml object.kind fields he

/-- In the same encoding, the kinds are compared before the payload is looked at. -/
theorem ofBytes_other_kind (hvalid : object.Valid) (hsizes : e = .messagePack → object.SizesFit)
    (hbytes : object.toBytes e = .ok bytes) (hkind : kind ≠ object.kind) :
    Stored.ofBytes kind e bytes = .error (.kindMismatch kind.tag object.kind.tag) := by
  obtain ⟨rfl, rfl⟩ | ⟨rfl, rfl⟩ | ⟨fields, rfl, hfields, rfl⟩ := toBytes_cases hbytes
  · exact (object.ofBytes_json kind).trans (if_neg hkind)
  · have hread := ofBytes_messagePack hvalid (hsizes rfl) kind []
    rw [List.append_nil] at hread
    exact hread.trans (if_neg hkind)
  · exact (ofBytes_toml hfields kind).trans (if_neg hkind)

/-- In the same encoding, an object is only read as its own kind. -/
theorem kind_of_ofBytes {other : Stored} (hbytes : object.toBytes e = .ok bytes)
    (h : Stored.ofBytes kind e bytes = .ok other) : kind = object.kind := by
  by_contra hkind
  obtain ⟨rfl, rfl⟩ | ⟨rfl, rfl⟩ | ⟨fields, rfl, hfields, rfl⟩ := toBytes_cases hbytes
  · rw [ofBytes_json, if_neg hkind] at h
    exact absurd h (by simp)
  · exact hkind (kind_of_ofBytes_messagePack h)
  · rw [ofBytes_toml hfields, if_neg hkind] at h
    exact absurd h (by simp)

end

end Stored

end StepSignal
