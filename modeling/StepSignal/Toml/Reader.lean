import StepSignal.Toml.Lexeme
import StepSignal.Toml.Outline

/-!
# Reading TOML

Values are read with one level of nesting less inside each list and each pair of braces. A list or a
text has no more parts than the whole text has characters, so that number bounds every loop; it is
called `size` below.
-/

namespace StepSignal.Toml

/-- The number of levels that lists and braces may be nested, and of names that points may join,
plus one. -/
def nestingLimit : Nat := 80

/-! ## Names -/

/-- Whether a character can stand in a name without quotes. -/
def isBareKey (c : Char) : Bool := c.isAlphanum || c = '_' || c = '-'

/-- One name, in quotes or not. -/
def name? (cs : List Char) : Option (String × List Char) :=
  match cs with
  | '"' :: rest => (basic? rest).map fun (text, rest) => (String.ofList text, rest)
  | '\x27' :: rest => (literal? rest).map fun (text, rest) => (String.ofList text, rest)
  | cs =>
    match cs.takeWhile isBareKey with
    | [] => none
    | bare => some (String.ofList bare, cs.dropWhile isBareKey)

/-- Names with points between them, and blanks around each. -/
def names? : Nat → List Char → Option (List String × List Char)
  | 0, _ => none
  | size + 1, cs => do
    let (name, rest) ← name? (skipBlanks cs)
    match skipBlanks rest with
    | '.' :: rest =>
      let (more, rest) ← names? size rest
      return (name :: more, rest)
    | rest => return ([name], rest)

/-- A name with points. -/
def path? (size : Nat) (cs : List Char) : Option (Path × List Char) := do
  let (names, rest) ← names? size cs
  guard (names.length < nestingLimit)
  return (← Path.ofNames? names, rest)

/-! ## Values -/

section Nested

variable (value : List Char → Option (Document × List Char))

/-- An equals sign and the value behind it. -/
def assigned? (cs : List Char) : Option (Document × List Char) :=
  match cs with
  | '=' :: rest => value (skipBlanks rest)
  | _ => none

/-- The items of a list from the front of an item, or of the closing bracket, to behind that
bracket. -/
def items? : Nat → List Char → Option (List Document × List Char)
  | 0, _ => none
  | size + 1, cs => do
    match ← skipLines? cs with
    | ']' :: rest => return ([], rest)
    | cs =>
      let (d, rest) ← value cs
      match ← skipLines? rest with
      | ']' :: rest => return ([d], rest)
      | ',' :: rest =>
        let (more, rest) ← items? size rest
        return (d :: more, rest)
      | _ => none

/-- The entries between braces from the front of a name to behind the closing brace, added to those
before them. -/
def braced? (entries : Entries) : Nat → List Char → Option (Entries × List Char)
  | 0, _ => none
  | size + 1, cs => do
    let (path, rest) ← path? (size + 1) cs
    let (d, rest) ← assigned? value rest
    let entries ← addValue entries path d
    match skipBlanks rest with
    | '\x7d' :: rest => return (entries, rest)
    | ',' :: rest => braced? entries size rest
    | _ => none

/-- A map after its opening brace. -/
def inlineMap? (size : Nat) (cs : List Char) : Option (Document × List Char) :=
  match skipBlanks cs with
  | '\x7d' :: rest => some (.map [], rest)
  | cs => (braced? value [] size cs).map fun (entries, rest) => (.map (entryDocuments entries), rest)

end Nested

/-- A value that has no parts. -/
def simple? : List Char → Option (Document × List Char)
  | 't' :: 'r' :: 'u' :: 'e' :: rest => some (.bool true, rest)
  | 'f' :: 'a' :: 'l' :: 's' :: 'e' :: rest => some (.bool false, rest)
  | cs =>
    match text? cs with
    | some (text, rest) => some (.text (String.ofList text), rest)
    | none => ((moment? cs).map fun rest => (momentDocument, rest)).or (number? cs)

/-- A value that is nested fewer than `depth` levels deep. -/
def value? (size : Nat) : Nat → List Char → Option (Document × List Char)
  | 0, _ => none
  | depth + 1, cs =>
    match cs with
    | '[' :: rest =>
      if depth = 0 then none
      else (items? (value? size depth) size rest).map fun (items, rest) => (.list items, rest)
    | '\x7b' :: rest => if depth = 0 then none else inlineMap? (value? size depth) size rest
    | cs => simple? cs

/-! ## Lines -/

/-- A name, its value and the end of the line. -/
def entryLine? (size : Nat) (o : Outline) (cs : List Char) : Option (Outline × List Char) := do
  let (path, rest) ← path? size cs
  let (d, rest) ← assigned? (value? size nestingLimit) rest
  let o ← o.add path d
  return (o, ← lineEnd? rest)

/-- A header, after its first bracket, and the end of the line. -/
def headerLine? (size : Nat) (o : Outline) (cs : List Char) : Option (Outline × List Char) :=
  match cs with
  | '[' :: cs => do
    let (path, rest) ← path? size cs
    match rest with
    | ']' :: ']' :: rest => return (← o.openItem path, ← lineEnd? rest)
    | _ => none
  | cs => do
    let (path, rest) ← path? size cs
    match rest with
    | ']' :: rest => return (← o.openMap path, ← lineEnd? rest)
    | _ => none

/-- All lines of a text, at most as many as the number says, and the outline that they give. -/
def lines? (size : Nat) (o : Outline) : Nat → List Char → Option Outline
  | 0, _ => none
  | count + 1, cs =>
    match skipBlanks cs with
    | [] => some o
    | '#' :: rest => do lines? size o count (← lineEnd? ('#' :: rest))
    | '\n' :: rest => lines? size o count rest
    | '\r' :: '\n' :: rest => lines? size o count rest
    | '[' :: rest => do
      let (o, rest) ← headerLine? size o rest
      lines? size o count rest
    | cs => do
      let (o, rest) ← entryLine? size o cs
      lines? size o count rest

/-- The text without a mark of byte order in front. -/
def skipMark : List Char → List Char
  | '\uFEFF' :: rest => rest
  | cs => cs

/-- The document of a text. -/
def read? (text : List Char) : Option Document := do
  let cs := skipMark text
  let size := cs.length + 1
  (← lines? size .empty size cs).toDocument?

end StepSignal.Toml
