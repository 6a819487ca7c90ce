import StepSignal.Proofs.Document.Choices
import StepSignal.Proofs.Json.Reader
import StepSignal.Proofs.Utf8

/-!
# Objects stored as JSON

Every object has a spelling in the format, and its envelope is read back with one difference: a number
that is not finite was written as `null`.
-/

namespace StepSignal

open Document (Plain)

/-! ## Documents of objects -/

theorem plain_ofOption {β : Type} {write : β → Document} (hwrite : ∀ b, Plain (write b))
    (o : Option β) : Plain (.ofOption write o) := by
  cases o with
  | none => exact .null
  | some b => exact hwrite b

theorem plain_map {β : Type} {write : β → Document} (hwrite : ∀ b, Plain (write b)) (xs : List β) :
    Plain (.list (xs.map write)) :=
  .list (List.forall_mem_map.mpr fun b _ => hwrite b)

theorem plain_choice (name : String) {d : Document} (hd : Plain d) : Plain (.choice name d) := by
  show Plain (.record [(name, d)])
  exact .record (by simpa using hd)

theorem plain_cell (c : Cell Float) : Plain c.toDocument := by
  cases c with
  | null => exact .text "Null"
  | bool b => exact plain_choice _ (.bool b)
  | int n =>
    refine plain_choice _ ?_
    rw [Document.ofInt]
    split
    · exact .natural _
    · exact .integer _
  | num x => exact plain_choice _ (.float x)
  | text s => exact plain_choice _ (.text s)

theorem plain_column (c : Column Float) : Plain c.toDocument :=
  .record (by simpa using ⟨.text c.name, plain_map plain_cell c.cells⟩)

theorem plain_sample (x : Float) : Plain (Series.sampleDocument x) := by
  rw [Series.sampleDocument]
  split
  · exact .null
  · exact .float x

theorem plain_index (index : List Float) : Plain (indexDocument index) := plain_map .float index

namespace Stored

theorem plain_payload (object : Stored) : Plain object.payload := by
  cases object with
  | table t => exact .record (by simpa using ⟨plain_index t.times, plain_map plain_column t.columns⟩)
  | series s =>
    exact .record (by
      simpa using ⟨.text s.name, plain_index s.times, plain_map plain_sample s.values⟩)
  | settings s =>
    refine .record ?_
    simp only [List.forall_mem_cons, List.not_mem_nil, false_implies, implies_true, and_true]
    exact ⟨.text _, .bool _, .text _, plain_map .text _, .bool _, plain_ofOption .text _,
      plain_ofOption .text _, .natural _, plain_ofOption .float _, .text _⟩

theorem plain_envelope (object : Stored) : Plain object.envelope :=
  .record (by simpa using ⟨.natural formatVersion, .text object.kind.tag, object.plain_payload⟩)

/-! ## Bytes -/

/-- The bytes of an object. -/
def jsonBytes (object : Stored) : List UInt8 :=
  Utf8.encode (Json.write Json.indented 0 object.envelope)

theorem toBytes_json (object : Stored) : object.toBytes .json = .ok object.jsonBytes := rfl

/-- **The bytes of an object are read as its envelope**, with the numbers that the format has. -/
theorem read?_json (object : Stored) : Encoding.json.read? object.jsonBytes =
    some ((envelopeOf object.kind object.payload).renumber Json.renumbering) := by
  show Json.read? (Utf8.decode object.jsonBytes) = _
  rw [jsonBytes, Utf8.decode_encode, Json.read?_write object.plain_envelope, envelope_eq]

/-- Reading the bytes of an object reads its payload if the kind is the right one. -/
theorem ofBytes_json (object : Stored) (kind : ObjectKind) :
    Stored.ofBytes kind .json object.jsonBytes =
      if kind = object.kind then
        orDecodeFault (Stored.ofPayload? Encoding.json.dialect object.kind
          (object.payload.renumber Json.renumbering))
      else .error (.kindMismatch kind.tag object.kind.tag) :=
  Stored.ofBytes_of_read? Json.keeps_renumbering object.read?_json kind

end Stored

end StepSignal
