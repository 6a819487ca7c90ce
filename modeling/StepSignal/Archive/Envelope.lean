import StepSignal.Archive.Encoding
import StepSignal.Document.Choices
import StepSignal.Document.Data

/-!
# Envelopes

Tables, series and settings are stored in an envelope that says which version of the layout it has and
what kind of object is inside. Reading looks at the version first, then at the kind, and at the object
only when both are as expected, so that nothing is taken for what it is not.
-/

namespace StepSignal

/-! ## Objects -/

/-- The kinds of object that can be stored. -/
inductive ObjectKind where
  | table
  | series
  | settings
deriving DecidableEq, Repr

/-- The name of a kind in an envelope. -/
def ObjectKind.tag : ObjectKind → String
  | table => "table"
  | series => "series"
  | settings => "analysis_config"

/-- An object that can be stored. -/
inductive Stored where
  | table (t : Table Float)
  | series (s : Series Float)
  | settings (s : Settings Float)

namespace Stored

def kind : Stored → ObjectKind
  | table _ => .table
  | series _ => .series
  | settings _ => .settings

/-- The document of an object by itself. -/
def payload : Stored → Document
  | table t => t.toDocument
  | series s => s.toDocument
  | settings s => s.toDocument

/-- The object of a kind that a document stands for. -/
def ofPayload? (dialect : Dialect) (kind : ObjectKind) (d : Document) : Option Stored :=
  match kind with
  | .table => (Table.ofDocument? dialect d).map table
  | .series => (Series.ofDocument? dialect d).map series
  | .settings => (Settings.ofDocument? dialect d).map settings

end Stored

/-! ## Faults -/

/-- Why an object is not stored or not read. -/
inductive StoreFault where
  /-- The place cannot be written to or read from. -/
  | io
  /-- The encoding has no spelling for the object. -/
  | encode (kind : ObjectKind)
  /-- The bytes are no envelope of the encoding, or the object inside is no valid one. -/
  | decode
  | versionMismatch (found : Nat)
  | kindMismatch (expected found : String)
  | fileNotFound (path : String)
  | unknownEncoding (text : String)
deriving DecidableEq, Repr

/-- The version of the layout of envelopes. -/
def formatVersion : Nat := 1

/-- The message of a fault. -/
def StoreFault.message : StoreFault → String
  | io => "IO error"
  | encode kind => "Failed to encode " ++ kind.tag
  | decode => "Failed to decode"
  | versionMismatch found =>
    "Format version mismatch: expected " ++ toString formatVersion ++ ", found " ++ toString found
  | kindMismatch expected found => "Kind mismatch: expected " ++ expected ++ ", found " ++ found
  | fileNotFound path => "File not found: " ++ path
  | unknownEncoding text => "Unknown encoding: " ++ text

/-- The encoding of a name, or the fault that there is none. -/
def Encoding.ofName (text : String) : Except StoreFault Encoding :=
  match ofName? text with
  | some e => .ok e
  | none => .error (.unknownEncoding text)

/-! ## Envelopes -/

/-- The envelope of an object. -/
def Stored.envelope (object : Stored) : Document :=
  .record [
    ("format_version", .natural formatVersion),
    ("kind", .text object.kind.tag),
    ("payload", object.payload)]

/-- What an envelope says about its object. -/
structure EnvelopeHeader where
  version : Nat
  kind : String
deriving DecidableEq, Repr

/-- The header of an envelope. -/
def EnvelopeHeader.ofDocument? (dialect : Dialect) (d : Document) : Option EnvelopeHeader := do
  let fields ← d.fields? dialect ["format_version", "kind"]
  let version ← fields.required 0 (Document.natBelow? UInt32.size)
  let kind ← fields.required 1 Document.text?
  return ⟨version, kind⟩

/-- The object of a kind in an envelope, whatever its header says. -/
def envelopedObject? (dialect : Dialect) (kind : ObjectKind) (d : Document) : Option Stored := do
  let fields ← d.fields? dialect ["payload"]
  fields.required 0 (Stored.ofPayload? dialect kind)

/-- The bytes of an object in its envelope. -/
def Stored.toBytes (object : Stored) (e : Encoding) : Except StoreFault (List UInt8) :=
  match e.write? object.envelope with
  | some bytes => .ok bytes
  | none => .error (.encode object.kind)

/-- Turns an absent result into the fault that the bytes cannot be read. -/
def orDecodeFault {β : Type} : Option β → Except StoreFault β
  | some b => .ok b
  | none => .error .decode

/-- The object of a kind that some bytes hold in its envelope. -/
def Stored.ofBytes (kind : ObjectKind) (e : Encoding) (bytes : List UInt8) :
    Except StoreFault Stored := do
  let d ← orDecodeFault (e.read? bytes)
  let header ← orDecodeFault (EnvelopeHeader.ofDocument? e.dialect d)
  unless header.version = formatVersion do
    throw (.versionMismatch header.version)
  unless header.kind = kind.tag do
    throw (.kindMismatch kind.tag header.kind)
  orDecodeFault (envelopedObject? e.dialect kind d)

end StepSignal
