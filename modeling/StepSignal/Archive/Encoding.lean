import StepSignal.Json.Reader
import StepSignal.Json.Writer
import StepSignal.MessagePack.Reader
import StepSignal.MessagePack.Writer
import StepSignal.Toml.Reader
import StepSignal.Toml.Writer

/-!
# Encodings

A document is stored as bytes in one of three encodings. The encoding of a file can be guessed from
the extension of its name: what comes after the last point of the last part of its path, unless that
point is the first character.
-/

namespace StepSignal

/-- How documents are stored as bytes. -/
inductive Encoding where
  | json
  | messagePack
  | toml
deriving DecidableEq, Repr

/-- The last part of a path, as far as it names something: parts that are empty or a single point lead
nowhere, and two points name no file. -/
def fileName? (path : List Char) : Option (List Char) :=
  match (path.splitOn '/').filter (fun part => part ≠ [] && part ≠ ['.']) |>.getLast? with
  | some ['.', '.'] => none
  | found => found

/-- What comes after the last point of a file name. A name without a point, or with no point but the
first character, has no extension. -/
def extension? (name : List Char) : Option (List Char) :=
  let reversed := name.reverse
  match reversed.dropWhile (· ≠ '.') with
  | [] => none
  | [_] => none
  | _ => some (reversed.takeWhile (· ≠ '.')).reverse

namespace Encoding

/-- The names of the encodings. -/
def names : List (String × Encoding) :=
  [("json", json), ("msgpack", messagePack), ("mp", messagePack), ("toml", toml)]

/-- The encoding of a name. -/
def ofName? (text : String) : Option Encoding := names.lookup text

/-- The encoding that the extension of a path names. -/
def ofPath? (path : String) : Option Encoding := do
  let name ← fileName? path.toList
  ofName? (String.ofList (← extension? name))

/-- The liberties that an encoding allows. -/
def dialect : Encoding → Dialect
  | json => ⟨false, false⟩
  | messagePack => ⟨false, false⟩
  | toml => ⟨true, true⟩

/-- The bytes of a document, if the encoding has a spelling for all of it. -/
def write? (e : Encoding) (d : Document) : Option (List UInt8) :=
  match e with
  | json => some (Utf8.encode (Json.write Json.indented 0 d))
  | messagePack => some (MessagePack.write d)
  | toml => (Toml.write? d).map Utf8.encode

/-- The document of some bytes. -/
def read? (e : Encoding) (bytes : List UInt8) : Option Document :=
  match e with
  | json => Json.read? (Utf8.decode bytes)
  | messagePack => MessagePack.read? bytes
  | toml => (Utf8.text? bytes).bind Toml.read?

end Encoding

end StepSignal
