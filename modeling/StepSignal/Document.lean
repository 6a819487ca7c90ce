import StepSignal.Utf8

/-!
# Documents

A document is what the formats of stored data have in common: values without a schema. Every format
has a reader from its text or bytes to a document and a writer in the other direction, so that what a
table or a series looks like in storage is said once, in documents.

Formats differ in a few liberties that they allow, which a `Dialect` lists.
-/

namespace StepSignal

/-- A value without a schema. -/
inductive Document where
  | null
  | bool (value : Bool)
  /-- A number of a format that writes numbers at or above zero in a form of their own. Such a number
  can stand for the position of a name. -/
  | natural (value : Nat)
  | integer (value : Int)
  | float (value : Float)
  | text (value : String)
  | bytes (value : List UInt8)
  | list (items : List Document)
  | map (entries : List (Document × Document))
  /-- A text whose bytes are no characters. As a name it is one that nothing has. -/
  | garbled
  /-- What is well formed but has no meaning; it can only be passed over. -/
  | unreadable

/-- The liberties of a format. -/
structure Dialect where
  /-- A list of fields may go on behind the last field. -/
  surplusItems : Bool
  /-- A choice that carries nothing may carry an empty list or map. -/
  emptyPayload : Bool

namespace Document

/-! ## Writing -/

/-- The document of a whole number. -/
def ofInt (n : Int) : Document := if 0 ≤ n then .natural n.toNat else .integer n

/-- The document of a value that may be absent. -/
def ofOption {β : Type} (write : β → Document) : Option β → Document
  | some b => write b
  | none => .null

/-- The document of a record with named fields. -/
def record (fields : List (String × Document)) : Document :=
  .map (fields.map fun (name, value) => (.text name, value))

/-- The document of a choice that carries a value. -/
def choice (name : String) (payload : Document) : Document := .map [(.text name, payload)]

/-! ## Reading -/

def bool? : Document → Option Bool
  | .bool b => some b
  | _ => none

/-- The whole number that a document holds. -/
def int? : Document → Option Int
  | .natural n => some n
  | .integer n => some n
  | _ => none

/-- The whole number that a document holds, if it is below `bound` and not negative. -/
def natBelow? (bound : Nat) (d : Document) : Option Nat := do
  let n ← d.int?
  if 0 ≤ n ∧ n < bound then some n.toNat else none

/-- The 64-bit integer that a document holds. -/
def int64? (d : Document) : Option Int64 := do
  let n ← d.int?
  if Int64.minValue.toInt ≤ n ∧ n ≤ Int64.maxValue.toInt then some (Int64.ofInt n) else none

/-- The number that a document holds; a whole number is rounded to the nearest double. -/
def float? : Document → Option Float
  | .float x => some x
  | d => d.int?.map Float.ofInt

/-- The text that a document holds, also in the form of its bytes. -/
def text? : Document → Option String
  | .text s => some s
  | .bytes b => (Utf8.text? b).map String.ofList
  | _ => none

/-- The items of a list, each read by `read`. No bytes are no items. -/
def list? {β : Type} (read : Document → Option β) : Document → Option (List β)
  | .list items => items.mapM read
  | .bytes [] => some []
  | _ => none

/-- The numbers of a list. Bytes are a list of numbers too. -/
def floats? : Document → Option (List Float)
  | .bytes b => some (b.map fun byte => Float.ofNat byte.toNat)
  | d => d.list? float?

/-- A value that may be absent. -/
def option? {β : Type} (read : Document → Option β) : Document → Option (Option β)
  | .null => some none
  | d => (read d).map some

/-! ## Names -/

/-- Of a document that names something: the position of the name among `names`, if it is one of
them. A name is given as text, as the bytes of a text, or by its position. -/
def position? (names : List String) : Document → Option (Option Nat)
  | .text s => some (names.idxOf? s)
  | .bytes b => some (names.findIdx? fun name => Utf8.encode name.toList == b)
  | .natural n => some (if n < names.length then some n else none)
  | .garbled => some none
  | _ => none

/-! ## Records -/

/-- The fields of a record, in the order of their names. -/
structure Fields where
  /-- Whether the fields came with their names, in any order. -/
  named : Bool
  values : List (Option Document)

/-- Enters the value of a field that has none yet. -/
def enter (values : List (Option Document)) (i : Nat) (value : Document) :
    Option (List (Option Document)) :=
  match values[i]? with
  | some none => some (values.set i (some value))
  | _ => none

/-- Collects the values of fields from named entries. Entries of other names are passed over; a field
that comes twice is refused. -/
def collect (names : List String) (values : List (Option Document)) :
    List (Document × Document) → Option (List (Option Document))
  | [] => some values
  | (key, value) :: rest =>
    match key.position? names with
    | none => none
    | some none => collect names values rest
    | some (some i) => (enter values i value).bind (collect names · rest)

/-- The fields of a record, which is a map from their names or a list in their order. No bytes are a
list without fields. -/
def fields? (dialect : Dialect) (names : List String) : Document → Option Fields
  | .map entries => (collect names (names.map fun _ => none) entries).map (⟨true, ·⟩)
  | .list items =>
    if items.length ≤ names.length || dialect.surplusItems then
      some ⟨false, (items.take names.length).map some⟩
    else none
  | .bytes [] => some ⟨false, []⟩
  | _ => none

namespace Fields

/-- The value of field `i`, if there is one. -/
def get? (fields : Fields) (i : Nat) : Option Document := (fields.values[i]?).join

/-- A field that has to be there. -/
def required {β : Type} (fields : Fields) (i : Nat) (read : Document → Option β) : Option β :=
  (fields.get? i).bind read

/-- A field that may be absent, though not from a list of fields. -/
def optional {β : Type} (fields : Fields) (i : Nat) (read : Document → Option β) :
    Option (Option β) :=
  match fields.get? i with
  | some d => d.option? read
  | none => if fields.named then some none else none

/-- A field that has a value of its own when it is absent. -/
def orElse {β : Type} (fields : Fields) (i : Nat) (read : Document → Option β) (absent : β) :
    Option β :=
  match fields.get? i with
  | some d => read d
  | none => some absent

end Fields

/-! ## Choices -/

/-- One of several named choices, by its position, and what it carries. -/
structure Choice where
  position : Nat
  payload : Option Document

/-- The choice that a document makes: a name by itself, or a map from one name to what it carries. -/
def choice? (names : List String) : Document → Option Choice
  | .map [(key, payload)] => (key.position? names).join.map (⟨·, some payload⟩)
  | d => (d.position? names).join.map (⟨·, none⟩)

/-- Whether a choice carries nothing. -/
def Choice.isBare (dialect : Dialect) (c : Choice) : Bool :=
  match c.payload with
  | none => true
  | some .null => true
  | some (.list []) => dialect.emptyPayload
  | some (.map []) => dialect.emptyPayload
  | _ => false

/-- What a choice carries. -/
def Choice.carried {β : Type} (c : Choice) (read : Document → Option β) : Option β :=
  c.payload.bind read

/-- One of several values that have names and carry nothing. -/
def named? {β : Type} (dialect : Dialect) (values : List β) (name : β → String) (d : Document) :
    Option β := do
  let c ← d.choice? (values.map name)
  guard (c.isBare dialect)
  values[c.position]?

end Document

end StepSignal
