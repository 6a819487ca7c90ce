import StepSignal.Decimal.Layout
import StepSignal.Document

/-!
# Writing TOML

A document is written as sections. The plain values of a map come first, one a line; every map below
it follows in a section of its own, `[a.b]`, and so does every map of a list that holds nothing but
maps, `[[a.b]]`. Lists of anything else stay on one line, with the maps in them written in braces.

The format has no null: an entry without a value is left out, and a list with such an item cannot be
written at all.
-/

namespace StepSignal.Toml

/-! ## What can be written -/

mutual

/-- The document without its empty entries, unless something in it has no spelling. -/
def spellable? : Document → Option Document
  | .bool b => some (.bool b)
  | .natural n => if n < 1 <<< 63 then some (.natural n) else none
  | .integer n =>
    if Int64.minValue.toInt ≤ n ∧ n ≤ Int64.maxValue.toInt then some (.integer n) else none
  | .float x => some (.float x)
  | .text s => some (.text s)
  | .list items => (spellableItems? items).map .list
  | .map entries => (spellableEntries? entries).map .map
  | .null => none
  | .bytes _ => none
  | .garbled => none
  | .unreadable => none

def spellableItems? : List Document → Option (List Document)
  | [] => some []
  | d :: rest => do
    let d ← spellable? d
    let rest ← spellableItems? rest
    return d :: rest

def spellableEntries? : List (Document × Document) → Option (List (Document × Document))
  | [] => some []
  | (key, value) :: rest =>
    match value with
    | .null => spellableEntries? rest
    | value => do
      let value ← spellable? value
      let rest ← spellableEntries? rest
      return (key, value) :: rest

end

/-! ## Texts -/

/-- Control characters other than the tab and the line feed. -/
def isControl (c : Char) : Bool := (c.toNat < 0x20 && c ≠ '\t' && c ≠ '\n') || c.toNat = 0x7F

/-- The length of the longest run of a character. -/
def longestRun (c : Char) (text : List Char) : Nat :=
  (text.foldl (fun (run, longest) d =>
    let run := if d = c then run + 1 else 0
    (run, max run longest)) (0, 0)).2

/-- The digit of a number below sixteen. -/
def hexDigit (n : Nat) : Char := ("0123456789ABCDEF".toList)[n]?.getD '0'

/-- The escape of a character that needs one. -/
def escape (c : Char) : List Char :=
  match c with
  | '\x08' => ['\\', 'b']
  | '\t' => ['\\', 't']
  | '\n' => ['\\', 'n']
  | '\x0c' => ['\\', 'f']
  | '\r' => ['\\', 'r']
  | '"' => ['\\', '"']
  | '\\' => ['\\', '\\']
  | c => ['\\', 'u', '0', '0', hexDigit (c.toNat / 16), hexDigit (c.toNat % 16)]

/-- Whether a character other than a quote is escaped between double quotes. -/
def needsEscape (multiline : Bool) (c : Char) : Bool :=
  c = '\t' || c = '\\' || isControl c || (c = '\n' && !multiline)

/-- The inside of a text in double quotes, after `run` quotes that were left as they are. Over several
lines two quotes in a row are left, on one line none. -/
def escapeText (multiline : Bool) (run : Nat) : List Char → List Char
  | [] => []
  | c :: rest =>
    if c = '"' then
      if run < (if multiline then 2 else 0) then '"' :: escapeText multiline (run + 1) rest
      else escape c ++ escapeText multiline 0 rest
    else if needsEscape multiline c then escape c ++ escapeText multiline 0 rest
    else c :: escapeText multiline 0 rest

/-- A text between double quotes, with escapes. -/
def basic (text : List Char) : List Char := '"' :: (escapeText false 0 text ++ ['"'])

/-- A text between single quotes, as it is. -/
def literal (text : List Char) : List Char := '\x27' :: (text ++ ['\x27'])

/-- The line break after three opening quotes, which is no part of the text. -/
def openingBreak (text : List Char) : List Char := if text.contains '\n' then ['\n'] else []

/-- A text between three double quotes, with escapes. -/
def multilineBasic (text : List Char) : List Char :=
  "\"\"\"".toList ++ openingBreak text ++ escapeText true 0 text ++ "\"\"\"".toList

/-- A text between three single quotes, as it is. -/
def multilineLiteral (text : List Char) : List Char :=
  "\x27\x27\x27".toList ++ openingBreak text ++ text ++ "\x27\x27\x27".toList

/-- The spelling of a text that needs the fewest escapes: between double quotes if nothing has to be
escaped, then between single quotes, then between three of either, and with escapes only when no
quotes will do. -/
def quote (text : List Char) : List Char :=
  let controls := text.any isControl
  let slashes := text.contains '\\'
  let lines := text.contains '\n'
  let doubles := longestRun '"' text
  let singles := longestRun '\x27' text
  if !controls && !slashes && !lines && doubles = 0 then basic text
  else if !controls && !lines && singles = 0 then literal text
  else if !controls && !slashes && doubles ≤ 2 then multilineBasic text
  else if !controls && singles ≤ 2 then multilineLiteral text
  else if lines then multilineBasic text
  else basic text

/-! ## Values -/

/-- Numbers have no exponent, and whole numbers end with `.0`. -/
def numberLayout : Decimal.Layout := ⟨none, ".0", .up⟩

/-- The spelling of a number. -/
def number (x : Float) : List Char :=
  if x.isNaN then "nan".toList else (numberLayout.text x).toList

/-- Whether a character can stand in a name without quotes. -/
def isBare (c : Char) : Bool := c.isAlphanum || c = '_' || c = '-'

/-- The spelling of a name, which stays on one line. -/
def keyText (key : Document) : List Char :=
  match key with
  | .text s => if !s.isEmpty && s.toList.all isBare then s.toList else basic s.toList
  | _ => []

mutual

/-- A value on one line. -/
def valueText : Document → List Char
  | .bool b => (if b then "true" else "false").toList
  | .natural n => (toString n).toList
  | .integer n => (toString n).toList
  | .float x => number x
  | .text s => quote s.toList
  | .list items => '[' :: ((", ".toList).intercalate (inlineItems items) ++ [']'])
  | .map [] => ['\x7b', '\x7d']
  | .map entries =>
    "\x7b ".toList ++ (", ".toList).intercalate (inlineEntries entries) ++ " \x7d".toList
  | .null => []
  | .bytes _ => []
  | .garbled => []
  | .unreadable => []

def inlineItems : List Document → List (List Char)
  | [] => []
  | d :: rest => valueText d :: inlineItems rest

def inlineEntries : List (Document × Document) → List (List Char)
  | [] => []
  | (key, value) :: rest => (keyText key ++ " = ".toList ++ valueText value) :: inlineEntries rest

end

/-! ## Sections -/

def isMap : Document → Bool
  | .map _ => true
  | _ => false

/-- Whether a value has sections of its own. -/
def hasSections : Document → Bool
  | .map _ => true
  | .list items => !items.isEmpty && items.all isMap
  | _ => false

/-- The lines of the plain values of a map. -/
def plainLines (entries : List (Document × Document)) : List Char :=
  (entries.filter fun (_, value) => !hasSections value).flatMap fun (key, value) =>
    keyText key ++ " = ".toList ++ valueText value ++ ['\n']

/-- The names of a path, with points between them. -/
def pathText (path : List (List Char)) : List Char := ['.'].intercalate path

/-- The header of a section. A map with nothing but sections below it needs none. -/
def header (path : List (List Char)) (entries : List (Document × Document)) : List Char :=
  if !entries.isEmpty && entries.all (fun (_, value) => hasSections value) then []
  else "\n[".toList ++ pathText path ++ "]\n".toList

/-- The header of a section for an item of a list. -/
def itemHeader (path : List (List Char)) : List Char :=
  "\n[[".toList ++ pathText path ++ "]]\n".toList

mutual

/-- The sections of a map below its own lines. -/
def sections (path : List (List Char)) : List (Document × Document) → List Char
  | [] => []
  | (key, value) :: rest => valueSection (path ++ [keyText key]) value ++ sections path rest

/-- The sections of one value. -/
def valueSection (path : List (List Char)) : Document → List Char
  | .map entries => header path entries ++ plainLines entries ++ sections path entries
  | .list items => if !items.isEmpty && items.all isMap then itemSections path items else []
  | _ => []

/-- The sections of the items of a list of maps. -/
def itemSections (path : List (List Char)) : List Document → List Char
  | [] => []
  | d :: rest => itemSection path d ++ itemSections path rest

/-- The sections of an item of a list of maps. -/
def itemSection (path : List (List Char)) : Document → List Char
  | .map entries => itemHeader path ++ plainLines entries ++ sections path entries
  | _ => []

end

/-- The text of a document, which has to be a map. The first line is never blank. -/
def write? (d : Document) : Option (List Char) := do
  match ← spellable? d with
  | .map entries =>
    match plainLines entries ++ sections [] entries with
    | '\n' :: text => return text
    | text => return text
  | _ => none

end StepSignal.Toml
