/-!
# UTF-8

The bytes of characters, and back. A character takes one to four bytes; the first byte tells how
many, and every further byte carries six bits.

    0xxxxxxx
    110xxxxx 10xxxxxx
    1110xxxx 10xxxxxx 10xxxxxx
    11110xxx 10xxxxxx 10xxxxxx 10xxxxxx

Only the shortest form of a character is accepted. Bytes that are no part of a character are kept
apart one by one, so that a reader can pass over them where their meaning does not matter.
-/

namespace StepSignal.Utf8

/-! ## Writing -/

/-- A further byte of a character: the lowest six bits of `n`. -/
def furtherByte (n : Nat) : UInt8 := (0x80 + n % 0x40).toUInt8

/-- The bytes of a character. -/
def encodeChar (c : Char) : List UInt8 :=
  let n := c.toNat
  if n < 0x80 then [n.toUInt8]
  else if n < 0x800 then [(0xC0 + n / 0x40).toUInt8, furtherByte n]
  else if n < 0x10000 then
    [(0xE0 + n / 0x1000).toUInt8, furtherByte (n / 0x40), furtherByte n]
  else
    [(0xF0 + n / 0x40000).toUInt8, furtherByte (n / 0x1000), furtherByte (n / 0x40), furtherByte n]

/-- The bytes of a text. -/
def encode (text : List Char) : List UInt8 := text.flatMap encodeChar

/-! ## Reading -/

/-- The six bits of a further byte. -/
def furtherBits? (b : UInt8) : Option Nat :=
  if 0x80 ≤ b && b < 0xC0 then some (b.toNat - 0x80) else none

/-- The bits of some further bytes, put behind `n`. -/
def extend? (n : Nat) (bytes : List UInt8) : Option Nat :=
  bytes.foldlM (fun n b => (furtherBits? b).map (n * 0x40 + ·)) n

/-- The number of further bytes after a first byte, the bits that the first byte carries, and the
least number for which the form is the shortest. -/
def form? (b : UInt8) : Option (Nat × Nat × Nat) :=
  if b < 0x80 then some (0, b.toNat, 0)
  else if b < 0xC0 then none
  else if b < 0xE0 then some (1, b.toNat - 0xC0, 0x80)
  else if b < 0xF0 then some (2, b.toNat - 0xE0, 0x800)
  else if b < 0xF8 then some (3, b.toNat - 0xF0, 0x10000)
  else none

/-- The character that starts with the byte `b`, and the number of further bytes it takes. -/
def first? (b : UInt8) (rest : List UInt8) : Option (Char × Nat) := do
  let (further, bits, least) ← form? b
  guard (further ≤ rest.length)
  let n ← extend? bits (rest.take further)
  guard (least ≤ n)
  if h : n.isValidChar then some (Char.ofNatAux n h, further) else none

/-- The characters of some bytes; every byte that belongs to no character gives a `none`. -/
def decode : List UInt8 → List (Option Char)
  | [] => []
  | b :: rest =>
    match first? b rest with
    | some (c, further) => some c :: decode (rest.drop further)
    | none => none :: decode rest
termination_by bytes => bytes.length
decreasing_by
  · simp only [List.length_drop, List.length_cons]; omega
  · simp only [List.length_cons]; omega

/-- The text of some bytes, all of which have to belong to characters. -/
def text? (bytes : List UInt8) : Option (List Char) := (decode bytes).mapM id

end StepSignal.Utf8
