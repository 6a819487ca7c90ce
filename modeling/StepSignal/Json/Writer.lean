import StepSignal.Decimal.Layout
import StepSignal.Document

/-!
# Writing JSON

Documents are written on one line or, for reading, with two more spaces of indentation for everything
inside a list or an object. Numbers that are not finite have no spelling and become `null`.
-/

namespace StepSignal.Json

/-! ## Texts and numbers -/

/-- The digit of a number below sixteen. -/
def hexDigit (n : Nat) : Char := ("0123456789abcdef".toList)[n]?.getD '0'

/-- A character inside a quoted text. Quotes, backslashes and control characters are escaped. -/
def escapeChar (c : Char) : List Char :=
  match c with
  | '"' => ['\\', '"']
  | '\\' => ['\\', '\\']
  | '\x08' => ['\\', 'b']
  | '\x0c' => ['\\', 'f']
  | '\n' => ['\\', 'n']
  | '\r' => ['\\', 'r']
  | '\t' => ['\\', 't']
  | c =>
    if c.toNat < 0x20 then
      ['\\', 'u', '0', '0', hexDigit (c.toNat / 16), hexDigit (c.toNat % 16)]
    else [c]

/-- A text in quotes. -/
def quote (s : String) : List Char := '"' :: (s.toList.flatMap escapeChar ++ ['"'])

/-- Decimal exponents from -5 to 15 are written in full, and whole numbers end with `.0`; of two
equally close decimals the even one is written. -/
def numberLayout : Decimal.Layout := ⟨some (-5, 15), ".0", .even⟩

/-- The spelling of a number. -/
def number (x : Float) : List Char :=
  if x.isFinite then (numberLayout.text x).toList else "null".toList

/-! ## Documents -/

/-- How the parts of a document are set apart. -/
structure Style where
  /-- What comes before an item, or before the closing bracket, at some depth. -/
  lineStart : Nat → List Char
  /-- What comes between a name and its value. -/
  colon : List Char

/-- Everything on one line without blanks. -/
def compact : Style := ⟨fun _ => [], [':']⟩

/-- Every item on a line of its own. -/
def indented : Style := ⟨fun depth => '\n' :: List.replicate (2 * depth) ' ', [':', ' ']⟩

/-- Items between brackets, each at the start of a line of its own; nothing stands between the
brackets when there are no items. -/
def enclose (style : Style) (depth : Nat) (opening closing : Char) (items : List (List Char)) :
    List Char :=
  match items with
  | [] => [opening, closing]
  | first :: rest =>
    let start := style.lineStart (depth + 1)
    opening :: (start ++ first ++ rest.flatMap (',' :: start ++ ·) ++
      style.lineStart depth ++ [closing])

mutual

/-- The text of a document at some depth. -/
def write (style : Style) (depth : Nat) : Document → List Char
  | .null => "null".toList
  | .bool b => (if b then "true" else "false").toList
  | .natural n => (toString n).toList
  | .integer n => (toString n).toList
  | .float x => number x
  | .text s => quote s
  | .bytes b => enclose style depth '[' ']' (b.map fun byte => (toString byte.toNat).toList)
  | .list items => enclose style depth '[' ']' (writeItems style (depth + 1) items)
  | .map entries => enclose style depth '\x7b' '\x7d' (writeEntries style (depth + 1) entries)
  | .garbled => "null".toList
  | .unreadable => "null".toList

/-- The texts of the items of a list. -/
def writeItems (style : Style) (depth : Nat) : List Document → List (List Char)
  | [] => []
  | d :: rest => write style depth d :: writeItems style depth rest

/-- The texts of the entries of a map. -/
def writeEntries (style : Style) (depth : Nat) : List (Document × Document) → List (List Char)
  | [] => []
  | (key, value) :: rest =>
    (write style depth key ++ style.colon ++ write style depth value) ::
      writeEntries style depth rest

end

end StepSignal.Json
