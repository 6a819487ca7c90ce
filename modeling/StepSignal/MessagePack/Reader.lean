import StepSignal.Document

/-!
# Reading MessagePack

The first byte of a value tells how it goes on, which `head?` takes apart: either the value itself,
or the size of a list or a map whose parts follow. Parts are read with one level of nesting less than
the whole, and there are at most `nestingLimit` levels.

Values of extension types have no meaning here and can only be passed over; each is a level of its
own.
-/

namespace StepSignal.MessagePack

/-! ## Words -/

/-- The first `n` bytes and the bytes after them. -/
def take? (n : Nat) (bytes : List UInt8) : Option (List UInt8 × List UInt8) :=
  if n ≤ bytes.length then some (bytes.take n, bytes.drop n) else none

/-- The number that some bytes write, the highest byte first. -/
def ofBigEndian (bytes : List UInt8) : Nat := bytes.foldl (fun n b => n * 256 + b.toNat) 0

/-- A word of `width` bytes. -/
def word? (width : Nat) (bytes : List UInt8) : Option (Nat × List UInt8) :=
  (take? width bytes).map fun (front, rest) => (ofBigEndian front, rest)

/-- The signed number that a word of `width` bytes stands for. -/
def signed (width n : Nat) : Int :=
  if n < 1 <<< (8 * width - 1) then n else n - (1 <<< (8 * width) : Nat)

/-! ## The start of a value -/

/-- What a value starts with. -/
inductive Head where
  /-- The whole value. -/
  | value (d : Document)
  /-- The number of items of a list. -/
  | list (size : Nat)
  /-- The number of entries of a map. -/
  | map (size : Nat)
  /-- The whole value of an extension type. -/
  | extension

/-- The value of the bytes of a text. -/
def textHead (bytes : List UInt8) : Head :=
  match Utf8.text? bytes with
  | some chars => .value (.text (String.ofList chars))
  | none => .value .garbled

/-- The value of a run of bytes. -/
def bytesHead (bytes : List UInt8) : Head := .value (.bytes bytes)

/-- The value of an extension type, whatever its bytes are. -/
def extensionHead (_ : List UInt8) : Head := .extension

/-- A value that is a word. -/
def wordValue? (width : Nat) (value : Nat → Document) (bytes : List UInt8) :
    Option (Head × List UInt8) :=
  (word? width bytes).map fun (n, rest) => (.value (value n), rest)

/-- A value that is a run of `size` bytes. -/
def runOf? (size : Nat) (head : List UInt8 → Head) (bytes : List UInt8) :
    Option (Head × List UInt8) :=
  (take? size bytes).map fun (run, rest) => (head run, rest)

/-- A value that is a run of bytes, after a word with their number and `more` bytes beyond it. -/
def sizedRun? (width more : Nat) (head : List UInt8 → Head) (bytes : List UInt8) :
    Option (Head × List UInt8) := do
  let (size, rest) ← word? width bytes
  runOf? (size + more) head rest

/-- A list or a map, after a word with its size. -/
def sized? (width : Nat) (head : Nat → Head) (bytes : List UInt8) :
    Option (Head × List UInt8) :=
  (word? width bytes).map fun (size, rest) => (head size, rest)

/-- The double of a word of four bytes. -/
def single (n : Nat) : Document := .float (Float32.ofBits n.toUInt32).toFloat

/-- The double of a word of eight bytes. -/
def double (n : Nat) : Document := .float (Float.ofBits n.toUInt64)

/-- What a value starts with, from 0xC0 on. -/
def wideHead? (first : UInt8) (rest : List UInt8) : Option (Head × List UInt8) :=
  match first with
  | 0xC0 => some (.value .null, rest)
  | 0xC2 => some (.value (.bool false), rest)
  | 0xC3 => some (.value (.bool true), rest)
  | 0xC4 => sizedRun? 1 0 bytesHead rest
  | 0xC5 => sizedRun? 2 0 bytesHead rest
  | 0xC6 => sizedRun? 4 0 bytesHead rest
  | 0xC7 => sizedRun? 1 1 extensionHead rest
  | 0xC8 => sizedRun? 2 1 extensionHead rest
  | 0xC9 => sizedRun? 4 1 extensionHead rest
  | 0xCA => wordValue? 4 single rest
  | 0xCB => wordValue? 8 double rest
  | 0xCC => wordValue? 1 .natural rest
  | 0xCD => wordValue? 2 .natural rest
  | 0xCE => wordValue? 4 .natural rest
  | 0xCF => wordValue? 8 .natural rest
  | 0xD0 => wordValue? 1 (.integer <| signed 1 ·) rest
  | 0xD1 => wordValue? 2 (.integer <| signed 2 ·) rest
  | 0xD2 => wordValue? 4 (.integer <| signed 4 ·) rest
  | 0xD3 => wordValue? 8 (.integer <| signed 8 ·) rest
  | 0xD4 => runOf? 2 extensionHead rest
  | 0xD5 => runOf? 3 extensionHead rest
  | 0xD6 => runOf? 5 extensionHead rest
  | 0xD7 => runOf? 9 extensionHead rest
  | 0xD8 => runOf? 17 extensionHead rest
  | 0xD9 => sizedRun? 1 0 textHead rest
  | 0xDA => sizedRun? 2 0 textHead rest
  | 0xDB => sizedRun? 4 0 textHead rest
  | 0xDC => sized? 2 .list rest
  | 0xDD => sized? 4 .list rest
  | 0xDE => sized? 2 .map rest
  | 0xDF => sized? 4 .map rest
  | _ => none

/-- What some bytes start with, and the bytes after it. -/
def head? : List UInt8 → Option (Head × List UInt8)
  | [] => none
  | first :: rest =>
    if first < 0x80 then some (.value (.natural first.toNat), rest)
    else if first < 0x90 then some (.map (first.toNat - 0x80), rest)
    else if first < 0xA0 then some (.list (first.toNat - 0x90), rest)
    else if first < 0xC0 then runOf? (first.toNat - 0xA0) textHead rest
    else if first < 0xE0 then wideHead? first rest
    else some (.value (.integer (signed 1 first.toNat)), rest)

/-! ## Values -/

section Parts

variable (part : List UInt8 → Option (Document × List UInt8))

/-- A number of items, one after the other. -/
def items? : Nat → List UInt8 → Option (List Document × List UInt8)
  | 0, bytes => some ([], bytes)
  | n + 1, bytes => do
    let (d, rest) ← part bytes
    let (ds, rest) ← items? n rest
    return (d :: ds, rest)

/-- A number of entries, one after the other. -/
def entries? : Nat → List UInt8 → Option (List (Document × Document) × List UInt8)
  | 0, bytes => some ([], bytes)
  | n + 1, bytes => do
    let (key, rest) ← part bytes
    let (value, rest) ← part rest
    let (more, rest) ← entries? n rest
    return ((key, value) :: more, rest)

end Parts

/-- The value that some bytes start with, if it is nested at most `depth` levels deep, and the bytes
after it. -/
def value? : Nat → List UInt8 → Option (Document × List UInt8)
  | 0, bytes =>
    match head? bytes with
    | some (.value d, rest) => some (d, rest)
    | _ => none
  | depth + 1, bytes =>
    match head? bytes with
    | some (.value d, rest) => some (d, rest)
    | some (.list size, rest) =>
      (items? (value? depth) size rest).map fun (ds, rest) => (.list ds, rest)
    | some (.map size, rest) =>
      (entries? (value? depth) size rest).map fun (es, rest) => (.map es, rest)
    | some (.extension, rest) => some (.unreadable, rest)
    | none => none

/-- The largest number of levels inside each other. -/
def nestingLimit : Nat := 1023

/-- The document that some bytes start with; what comes after it does not matter. -/
def read? (bytes : List UInt8) : Option Document := (value? nestingLimit bytes).map (·.1)

end StepSignal.MessagePack
