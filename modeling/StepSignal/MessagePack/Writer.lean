import StepSignal.Document

/-!
# Writing MessagePack

Every value starts with a byte that tells its kind, and often its size or the value itself. Whole
numbers and sizes are written in the shortest form that holds them, other numbers as doubles of eight
bytes. Words of several bytes start with the highest one.
-/

namespace StepSignal.MessagePack

/-- The last `width` bytes of a number, the highest first. -/
def bigEndian : Nat → Nat → List UInt8
  | 0, _ => []
  | width + 1, n => bigEndian width (n / 256) ++ [n.toUInt8]

/-- A whole number at or above zero. -/
def writeNatural (n : Nat) : List UInt8 :=
  if n < 0x80 then [n.toUInt8]
  else if n < 0x100 then 0xCC :: bigEndian 1 n
  else if n < 0x10000 then 0xCD :: bigEndian 2 n
  else if n < 0x100000000 then 0xCE :: bigEndian 4 n
  else 0xCF :: bigEndian 8 n

/-- The bytes of a negative number: those of its distance from the next power of two. -/
def negativeWord (width : Nat) (n : Int) : List UInt8 :=
  bigEndian width (n + (1 <<< (8 * width) : Nat)).toNat

/-- A whole number. -/
def writeInteger (n : Int) : List UInt8 :=
  if 0 ≤ n then writeNatural n.toNat
  else if -0x20 ≤ n then negativeWord 1 n
  else if -0x80 ≤ n then 0xD0 :: negativeWord 1 n
  else if -0x8000 ≤ n then 0xD1 :: negativeWord 2 n
  else if -0x80000000 ≤ n then 0xD2 :: negativeWord 4 n
  else 0xD3 :: negativeWord 8 n

/-- The size of a text, in bytes. -/
def writeTextSize (n : Nat) : List UInt8 :=
  if n < 0x20 then [(0xA0 + n).toUInt8]
  else if n < 0x100 then 0xD9 :: bigEndian 1 n
  else if n < 0x10000 then 0xDA :: bigEndian 2 n
  else 0xDB :: bigEndian 4 n

/-- The size of a run of bytes. -/
def writeBytesSize (n : Nat) : List UInt8 :=
  if n < 0x100 then 0xC4 :: bigEndian 1 n
  else if n < 0x10000 then 0xC5 :: bigEndian 2 n
  else 0xC6 :: bigEndian 4 n

/-- The number of items of a list. -/
def writeListSize (n : Nat) : List UInt8 :=
  if n < 0x10 then [(0x90 + n).toUInt8]
  else if n < 0x10000 then 0xDC :: bigEndian 2 n
  else 0xDD :: bigEndian 4 n

/-- The number of entries of a map. -/
def writeMapSize (n : Nat) : List UInt8 :=
  if n < 0x10 then [(0x80 + n).toUInt8]
  else if n < 0x10000 then 0xDE :: bigEndian 2 n
  else 0xDF :: bigEndian 4 n

/-- A text with its size. -/
def writeText (s : String) : List UInt8 :=
  let bytes := Utf8.encode s.toList
  writeTextSize bytes.length ++ bytes

mutual

/-- The bytes of a document. -/
def write : Document → List UInt8
  | .null => [0xC0]
  | .bool b => [if b then 0xC3 else 0xC2]
  | .natural n => writeNatural n
  | .integer n => writeInteger n
  | .float x => 0xCB :: bigEndian 8 x.toBits.toNat
  | .text s => writeText s
  | .bytes b => writeBytesSize b.length ++ b
  | .list items => writeListSize items.length ++ writeItems items
  | .map entries => writeMapSize entries.length ++ writeEntries entries
  | .garbled => [0xC0]
  | .unreadable => [0xC0]

/-- The bytes of the items of a list. -/
def writeItems : List Document → List UInt8
  | [] => []
  | d :: rest => write d ++ writeItems rest

/-- The bytes of the entries of a map. -/
def writeEntries : List (Document × Document) → List UInt8
  | [] => []
  | (key, value) :: rest => write key ++ write value ++ writeEntries rest

end

end StepSignal.MessagePack
