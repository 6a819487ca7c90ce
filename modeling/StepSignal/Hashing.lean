import StepSignal.Cell
import StepSignal.Scalar.Binary64
import StepSignal.Utf8

/-!
# What a hasher is fed

Rows are grouped by key in a hash map, which looks at a key in two ways: as the bytes that it feeds to
the hasher, and through the equality of cells. The bytes of a cell are its kind and its value: a
number as its bit pattern, with the two zeros folded into one, and a text with a byte behind it that
is in no text.

The order of cells sees numbers in a third way, by the order of their bit patterns.
-/

namespace StepSignal

namespace Binary64

/-- A double, with minus zero turned into zero. -/
def folded (x : Float) : Float := if x == 0 then 0 else x

/-- The bit pattern of a double as a signed word. The bits below a set sign bit are inverted, so that
the word of a negative number is the smaller the larger its magnitude is. -/
def orderWord (x : Float) : Int64 :=
  let word := x.toBits.toInt64
  word ^^^ ((word >>> 63).toUInt64 >>> 1).toInt64

/-- The order of bit patterns. Apart from the zeros and NaN it is the order of doubles. -/
def bitOrder (x y : Float) : Ordering := compare (orderWord x) (orderWord y)

end Binary64

/-- The last `width` bytes of a number, the lowest first. -/
def littleEndian : Nat → Nat → List UInt8
  | 0, _ => []
  | width + 1, n => n.toUInt8 :: littleEndian width (n / 256)

namespace Cell

/-- The bytes of the value of a cell. No text has the byte that ends one. -/
def hashedValue : Cell Float → List UInt8
  | null => []
  | bool b => [b.toNat.toUInt8]
  | int n => littleEndian 8 n.toUInt64.toNat
  | num x => littleEndian 8 (Binary64.folded x).toBits.toNat
  | text s => Utf8.encode s.toList ++ [0xFF]

/-- The bytes that a cell feeds to a hasher. -/
def hashed (c : Cell Float) : List UInt8 := c.rank.toUInt8 :: c.hashedValue

/-- The bytes that a key feeds to a hasher: its length and its cells. -/
def hashedAll (key : List (Cell Float)) : List UInt8 :=
  littleEndian 8 key.length ++ key.flatMap hashed

end Cell

end StepSignal
