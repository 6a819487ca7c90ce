import StepSignal.Json.Token

/-!
# Reading JSON

The words of a text are read one after the other. What is still open is kept on a stack: a list with
the items so far, or a map with the entries so far and the name that its next value belongs to. A text
is a document when its words leave exactly one value and nothing open.
-/

namespace StepSignal.Json

/-! ## What is open -/

/-- A list or a map whose closing bracket is still to come, with its parts in reverse order. -/
inductive Frame where
  | list (items : List Document)
  | map (entries : List (Document × Document))
  /-- A map after a name of an entry. -/
  | entry (entries : List (Document × Document)) (key : Document)

/-- Which word can come next. -/
inductive Expect where
  /-- A value. -/
  | value
  /-- The first item of a list, or its end. -/
  | firstItem
  /-- The first name of a map, or its end. -/
  | firstKey
  /-- A name. -/
  | key
  /-- The colon behind a name. -/
  | colon
  /-- A comma or the end of what is open, or the end of the text. -/
  | separator

/-- How far a text has been read. -/
structure Progress where
  expect : Expect
  stack : List Frame
  /-- The value of the whole text, once it is complete. -/
  result : Option Document

/-- Before the first word. -/
def Progress.start : Progress := ⟨.value, [], none⟩

/-! ## Reading word by word -/

/-- Puts a complete value where it belongs. -/
def place (stack : List Frame) (d : Document) : Option Progress :=
  match stack with
  | [] => some ⟨.separator, [], some d⟩
  | .list items :: rest => some ⟨.separator, .list (d :: items) :: rest, none⟩
  | .entry entries key :: rest => some ⟨.separator, .map ((key, d) :: entries) :: rest, none⟩
  | .map _ :: _ => none

/-- Closes the list on top of the stack. -/
def closeList : List Frame → Option Progress
  | .list items :: rest => place rest (.list items.reverse)
  | _ => none

/-- Closes the map on top of the stack. -/
def closeMap : List Frame → Option Progress
  | .map entries :: rest => place rest (.map entries.reverse)
  | _ => none

/-- Starts a value with a word. -/
def startValue (stack : List Frame) : Token → Option Progress
  | .quoted d => place stack d
  | .value d => place stack d
  | .openList => some ⟨.firstItem, .list [] :: stack, none⟩
  | .openMap => some ⟨.firstKey, .map [] :: stack, none⟩
  | _ => none

/-- Reads the name of an entry, which is a text in quotes. -/
def startEntry (stack : List Frame) (token : Token) : Option Progress :=
  match token, stack with
  | .quoted key, .map entries :: rest => some ⟨.colon, .entry entries key :: rest, none⟩
  | _, _ => none

/-- Goes on after a complete value. -/
def afterValue (stack : List Frame) : Token → Option Progress
  | .closeList => closeList stack
  | .closeMap => closeMap stack
  | .comma =>
    match stack with
    | .list _ :: _ => some ⟨.value, stack, none⟩
    | .map _ :: _ => some ⟨.key, stack, none⟩
    | _ => none
  | _ => none

/-- Reads one word. -/
def step (p : Progress) (token : Token) : Option Progress :=
  match p.expect with
  | .value => startValue p.stack token
  | .firstItem =>
    match token with
    | .closeList => closeList p.stack
    | token => startValue p.stack token
  | .firstKey =>
    match token with
    | .closeMap => closeMap p.stack
    | token => startEntry p.stack token
  | .key => startEntry p.stack token
  | .colon =>
    match token with
    | .colon => some ⟨.value, p.stack, none⟩
    | _ => none
  | .separator => afterValue p.stack token

/-- The document of a text. -/
def read? (glyphs : List Glyph) : Option Document := do
  let tokens ← tokens? glyphs
  let p ← tokens.foldlM step .start
  p.result

end StepSignal.Json
