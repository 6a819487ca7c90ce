import StepSignal.Decimal.Nearest
import StepSignal.Document

/-!
# The smallest parts of TOML

Blanks, comments and line ends; texts in their four kinds of quotes; numbers, dates and times. Every
reader takes what it reads from the front of the characters and returns what is left.

Dates and times are recognised, but they stand for no value of a document's own: they become a map
with a single entry of a name that no record uses.
-/

namespace StepSignal.Toml

/-! ## Blanks and line ends -/

def isBlank (c : Char) : Bool := c = ' ' || c = '\t'

def skipBlanks (cs : List Char) : List Char := cs.dropWhile isBlank

/-- Whether a character can stand in a comment or, unquoted, in a text between single quotes. -/
def isPrintable (c : Char) : Bool := c = '\t' || (0x20 ≤ c.toNat && c.toNat ≠ 0x7F)

/-- What comes after a line break. -/
def lineBreak? : List Char → Option (List Char)
  | '\n' :: rest => some rest
  | '\r' :: '\n' :: rest => some rest
  | _ => none

/-- What comes after a comment, where there is one. -/
def skipComment : List Char → List Char
  | '#' :: rest => rest.dropWhile isPrintable
  | rest => rest

/-- What comes after the end of a line, with a comment before it or not. The end of the text ends a
line as well. -/
def lineEnd? (cs : List Char) : Option (List Char) :=
  match skipComment (skipBlanks cs) with
  | [] => some []
  | rest => lineBreak? rest

mutual

/-- What comes after blanks, line breaks and whole-line comments. -/
def skipLines? : List Char → Option (List Char)
  | [] => some []
  | '#' :: rest => skipLineComment? rest
  | '\r' :: '\n' :: rest => skipLines? rest
  | c :: rest =>
    if c = '\r' then none
    else if c = '\n' || isBlank c then skipLines? rest
    else some (c :: rest)

/-- What comes after the rest of a comment, which a line break has to end, and after more of the
same. -/
def skipLineComment? : List Char → Option (List Char)
  | [] => none
  | '\n' :: rest => skipLines? rest
  | '\r' :: '\n' :: rest => skipLines? rest
  | c :: rest => if isPrintable c then skipLineComment? rest else none

end

/-! ## Texts -/

/-- The value of a hexadecimal digit. -/
def hexValue? (c : Char) : Option Nat :=
  if '0' ≤ c ∧ c ≤ '9' then some (c.toNat - '0'.toNat)
  else if 'a' ≤ c ∧ c ≤ 'f' then some (c.toNat - 'a'.toNat + 10)
  else if 'A' ≤ c ∧ c ≤ 'F' then some (c.toNat - 'A'.toNat + 10)
  else none

/-- The number that digits of some base write. -/
def ofDigits (base : Nat) (ds : List Nat) : Nat := ds.foldl (fun n d => n * base + d) 0

/-- The character of some hexadecimal digits. -/
def hexChar? (cs : List Char) : Option Char := do
  let n := ofDigits 16 (← cs.mapM hexValue?)
  if h : n.isValidChar then some (Char.ofNatAux n h) else none

/-- What a one-letter escape stands for. -/
def simpleEscape? : Char → Option Char
  | 'b' => some '\x08'
  | 't' => some '\t'
  | 'n' => some '\n'
  | 'f' => some '\x0c'
  | 'r' => some '\r'
  | '"' => some '"'
  | '\\' => some '\\'
  | _ => none

/-- Puts a character in front of a text that was read. -/
def prepend (c : Char) : List Char × List Char → List Char × List Char
  | (text, rest) => (c :: text, rest)

/-- A text after a double quote, up to the next one. -/
def basic? : List Char → Option (List Char × List Char)
  | [] => none
  | '"' :: rest => some ([], rest)
  | '\\' :: 'u' :: a :: b :: c :: d :: rest => do
    let char ← hexChar? [a, b, c, d]
    (basic? rest).map (prepend char)
  | '\\' :: 'U' :: a :: b :: c :: d :: e :: f :: g :: h :: rest => do
    let char ← hexChar? [a, b, c, d, e, f, g, h]
    (basic? rest).map (prepend char)
  | '\\' :: e :: rest => do
    let char ← simpleEscape? e
    (basic? rest).map (prepend char)
  | c :: rest => if c ≠ '\\' && isPrintable c then (basic? rest).map (prepend c) else none

/-- A text after a single quote, up to the next one. -/
def literal? : List Char → Option (List Char × List Char)
  | [] => none
  | '\x27' :: rest => some ([], rest)
  | c :: rest => if isPrintable c then (literal? rest).map (prepend c) else none

/-- What three closing quotes end: up to two more quotes still belong to the text. -/
def closing (quote : Char) : List Char → List Char × List Char
  | a :: b :: rest =>
    if a = quote ∧ b = quote then ([a, b], rest)
    else if a = quote then ([a], b :: rest)
    else ([], a :: b :: rest)
  | [a] => if a = quote then ([a], []) else ([], [a])
  | [] => ([], [])

/-- Where a text of several lines stands with respect to a line break that a backslash removes. -/
inductive Joint where
  /-- Not at one. -/
  | apart
  /-- After the backslash and before the line break. -/
  | before
  /-- After the line break, where blanks and more line breaks are removed too. -/
  | after
deriving DecidableEq

/-- A text of several lines after three double quotes, up to the next three. -/
def multilineBasic? (joint : Joint) : List Char → Option (List Char × List Char)
  | [] => none
  | '\r' :: '\n' :: rest =>
    if joint = .apart then (multilineBasic? .apart rest).map (prepend '\n')
    else multilineBasic? .after rest
  | '\n' :: rest =>
    if joint = .apart then (multilineBasic? .apart rest).map (prepend '\n')
    else multilineBasic? .after rest
  | ' ' :: rest =>
    if joint = .apart then (multilineBasic? .apart rest).map (prepend ' ')
    else multilineBasic? joint rest
  | '\t' :: rest =>
    if joint = .apart then (multilineBasic? .apart rest).map (prepend '\t')
    else multilineBasic? joint rest
  | '"' :: '"' :: '"' :: rest =>
    if joint = .before then none else some (closing '"' rest)
  | '\\' :: 'u' :: a :: b :: c :: d :: rest => do
    guard (joint ≠ .before)
    let char ← hexChar? [a, b, c, d]
    (multilineBasic? .apart rest).map (prepend char)
  | '\\' :: 'U' :: a :: b :: c :: d :: e :: f :: g :: h :: rest => do
    guard (joint ≠ .before)
    let char ← hexChar? [a, b, c, d, e, f, g, h]
    (multilineBasic? .apart rest).map (prepend char)
  | '\\' :: e :: rest => do
    guard (joint ≠ .before)
    if e = ' ' || e = '\t' || e = '\r' || e = '\n' then multilineBasic? .before (e :: rest)
    else
      let char ← simpleEscape? e
      (multilineBasic? .apart rest).map (prepend char)
  | c :: rest =>
    if joint ≠ .before && c ≠ '\\' && isPrintable c then
      (multilineBasic? .apart rest).map (prepend c)
    else none

/-- A text of several lines after three single quotes, up to the next three. -/
def multilineLiteral? : List Char → Option (List Char × List Char)
  | [] => none
  | '\x27' :: '\x27' :: '\x27' :: rest => some (closing '\x27' rest)
  | '\r' :: '\n' :: rest => (multilineLiteral? rest).map (prepend '\n')
  | c :: rest =>
    if c = '\n' || isPrintable c then (multilineLiteral? rest).map (prepend c) else none

/-- What comes after a line break, where there is one. -/
def skipLineBreak (cs : List Char) : List Char := (lineBreak? cs).getD cs

/-- A text in quotes of any kind. -/
def text? : List Char → Option (List Char × List Char)
  | '"' :: '"' :: '"' :: rest => multilineBasic? .apart (skipLineBreak rest)
  | '"' :: rest => basic? rest
  | '\x27' :: '\x27' :: '\x27' :: rest => multilineLiteral? (skipLineBreak rest)
  | '\x27' :: rest => literal? rest
  | _ => none

/-! ## Digits -/

/-- The value of a digit below a base. -/
def digitBelow? (base : Nat) (c : Char) : Option Nat := do
  let n ← hexValue? c
  if n < base then some n else none

/-- The digits after a first one; an underscore may stand between two digits. -/
def moreDigits? (base : Nat) : List Char → Option (List Nat × List Char)
  | [] => some ([], [])
  | '_' :: c :: rest => do
    let d ← digitBelow? base c
    let (ds, rest) ← moreDigits? base rest
    return (d :: ds, rest)
  | c :: rest =>
    match digitBelow? base c with
    | some d => (moreDigits? base rest).map fun (ds, rest) => (d :: ds, rest)
    | none => if c = '_' then none else some ([], c :: rest)

/-- One digit or more. -/
def digits? (base : Nat) : List Char → Option (List Nat × List Char)
  | [] => none
  | c :: rest => do
    let d ← digitBelow? base c
    let (ds, rest) ← moreDigits? base rest
    return (d :: ds, rest)

/-! ## Numbers -/

/-- The sign at the front, where there is one: whether it is a minus, and what comes after it. -/
def sign : List Char → Bool × List Char
  | '-' :: rest => (true, rest)
  | '+' :: rest => (false, rest)
  | rest => (false, rest)

/-- The digits before a point: a zero by itself, or digits that start with no zero. -/
def wholePart? : List Char → Option (List Nat × List Char)
  | '0' :: rest => some ([0], rest)
  | cs => digits? 10 cs

/-- The digits after a point. -/
def fractionPart? : List Char → Option (Option (List Nat) × List Char)
  | '.' :: rest => (digits? 10 rest).map fun (ds, rest) => (some ds, rest)
  | rest => some (none, rest)

/-- The exponent of ten. -/
def exponentPart? : List Char → Option (Option Int × List Char)
  | c :: rest =>
    if c = 'e' || c = 'E' then
      (digits? 10 (sign rest).2).map fun (ds, after) =>
        let n : Int := ofDigits 10 ds
        (some (if (sign rest).1 then -n else n), after)
    else some (none, c :: rest)
  | [] => some (none, [])

/-- The document of a whole number, if it has 64 bits with its sign. -/
def integerDocument? (n : Int) : Option Document :=
  if Int64.minValue.toInt ≤ n ∧ n ≤ Int64.maxValue.toInt then some (.integer n) else none

/-- The document of a number with a fraction or an exponent. One that is too large for a double is
refused above zero and infinite below. -/
def floatDocument? (negative : Bool) (ds : Decimal.Digits) : Option Document :=
  let x := Decimal.nearest negative ds
  if x.isFinite || negative then some (.float x) else none

/-- A whole number of another base, after its mark. -/
def based? (base : Nat) (cs : List Char) : Option (Document × List Char) := do
  let (ds, rest) ← digits? base cs
  return (← integerDocument? (ofDigits base ds), rest)

/-- The names of numbers that have no digits. -/
def special? (negative : Bool) : List Char → Option (Document × List Char)
  | 'i' :: 'n' :: 'f' :: rest =>
    some (.float (if negative then -1.0 / 0.0 else 1.0 / 0.0), rest)
  | 'n' :: 'a' :: 'n' :: rest => some (.float (0.0 / 0.0), rest)
  | _ => none

/-- A decimal number, after its sign. -/
def decimal? (negative : Bool) (cs : List Char) : Option (Document × List Char) := do
  let (whole, rest) ← wholePart? cs
  let (fraction, rest) ← fractionPart? rest
  let (exponent, rest) ← exponentPart? rest
  match fraction, exponent with
  | none, none =>
    let n : Int := ofDigits 10 whole
    return (← integerDocument? (if negative then -n else n), rest)
  | fraction, exponent =>
    let places := fraction.getD []
    let ds := ofDigits 10 (whole ++ places)
    return (← floatDocument? negative ⟨ds, exponent.getD 0 - places.length⟩, rest)

/-- A number. -/
def number? (cs : List Char) : Option (Document × List Char) :=
  match cs with
  | '0' :: 'x' :: rest => based? 16 rest
  | '0' :: 'o' :: rest => based? 8 rest
  | '0' :: 'b' :: rest => based? 2 rest
  | cs =>
    let (negative, rest) := sign cs
    (special? negative rest).or (decimal? negative rest)

/-! ## Dates and times -/

/-- A number of `width` digits within bounds. -/
def field? (width least greatest : Nat) (cs : List Char) : Option (Nat × List Char) := do
  let ds ← (cs.take width).mapM (digitBelow? 10)
  guard (ds.length = width)
  let n := ofDigits 10 ds
  guard (least ≤ n ∧ n ≤ greatest)
  return (n, cs.drop width)

/-- What comes after a character. -/
def after? (c : Char) : List Char → Option (List Char)
  | d :: rest => if d = c then some rest else none
  | [] => none

/-- The number of days of a month. -/
def daysOf (year month : Nat) : Nat :=
  if month = 2 then
    if year % 4 = 0 && (year % 100 ≠ 0 || year % 400 = 0) then 29 else 28
  else if month = 4 || month = 6 || month = 9 || month = 11 then 30
  else 31

/-- What comes after a date. -/
def date? (cs : List Char) : Option (List Char) := do
  let (year, rest) ← field? 4 0 9999 cs
  let rest ← after? '-' rest
  let (month, rest) ← field? 2 1 12 rest
  let rest ← after? '-' rest
  let (_, rest) ← field? 2 1 (daysOf year month) rest
  return rest

/-- What comes after a fraction of a second, where there is one. -/
def skipSecondFraction : List Char → List Char
  | '.' :: c :: rest => if c.isDigit then rest.dropWhile Char.isDigit else '.' :: c :: rest
  | rest => rest

/-- What comes after a time of day. The last minute of a day may have one second more. -/
def time? (cs : List Char) : Option (List Char) := do
  let (_, rest) ← field? 2 0 23 cs
  let rest ← after? ':' rest
  let (_, rest) ← field? 2 0 59 rest
  let rest ← after? ':' rest
  let (_, rest) ← field? 2 0 60 rest
  return skipSecondFraction rest

/-- What comes after a distance from universal time. -/
def offset? : List Char → Option (List Char)
  | [] => none
  | c :: rest =>
    if c = 'Z' || c = 'z' then some rest
    else if c = '+' || c = '-' then do
      let (_, rest) ← field? 2 0 23 rest
      let rest ← after? ':' rest
      let (_, rest) ← field? 2 0 59 rest
      return rest
    else none

/-- What comes after a time of day that follows a date, where there is one. -/
def skipTime (cs : List Char) : List Char :=
  match cs with
  | c :: rest =>
    if c = 'T' || c = 't' || c = ' ' then
      match time? rest with
      | some rest => (offset? rest).getD rest
      | none => cs
    else cs
  | [] => cs

/-- What comes after a date, a time, or both. -/
def moment? (cs : List Char) : Option (List Char) := ((date? cs).map skipTime).or (time? cs)

/-- The document of a date or a time. -/
def momentDocument : Document := .map [(.text "$moment", .unreadable)]

end StepSignal.Toml
