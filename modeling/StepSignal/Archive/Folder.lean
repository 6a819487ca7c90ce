import StepSignal.Archive.Envelope

/-!
# Folders

A folder is a map from names to the contents of files. Saving makes the file first, empty, whatever it
held before, and encodes the object after that, so that a save that fails on the way leaves an empty
file behind.
-/

namespace StepSignal

/-- The files of a folder and what they hold. -/
structure Folder where
  files : List (String × List UInt8)

/-- Where a path leads from a folder that has no folders in it. -/
inductive Place where
  /-- To a folder: this one or one around it. -/
  | folder
  /-- To a file, whether there is one or not. -/
  | file (name : String)
  /-- Nowhere, through something that is no folder or by a name or path that no file can have. -/
  | nowhere
deriving DecidableEq, Repr

/-- The largest number of bytes in a file name. -/
def fileNameLimit : Nat := 255

/-- The largest number of bytes in a path. -/
def pathLimit : Nat := 4095

/-- Whether a file can have a name. -/
def isFileName (name : List Char) : Bool :=
  !name.contains '\x00' && (Utf8.encode name).length ≤ fileNameLimit

/-- Whether a path ends in a way that only a folder can be meant. -/
def meansFolder (parts : List (List Char)) : Bool :=
  match parts.getLast? with
  | some part => part = [] || part = ['.']
  | none => true

/-- Where a path leads. Parts that are empty or a single point stay where they are, and two points
lead to the folder around. A path that is too long leads nowhere, whatever its parts are. -/
def placeOf (path : String) : Place :=
  let parts := path.toList.splitOn '/'
  let steps := parts.filter fun part => part ≠ [] && part ≠ ['.']
  let around := steps.takeWhile (· = ['.', '.'])
  if pathLimit < path.utf8ByteSize then .nowhere
  else match steps.drop around.length with
    | [] => .folder
    | [name] =>
      if isFileName name && !meansFolder parts then
        .file (String.ofList (['/'].intercalate (around ++ [name])))
      else .nowhere
    | _ => .nowhere

namespace Folder

/-- A folder without files. -/
def empty : Folder := ⟨[]⟩

/-- What a file holds. -/
def contents? (f : Folder) (name : String) : Option (List UInt8) := f.files.lookup name

/-- Makes a file hold some bytes, and nothing of what it held before. -/
def put (f : Folder) (name : String) (bytes : List UInt8) : Folder :=
  ⟨(name, bytes) :: f.files.filter (·.1 ≠ name)⟩

/-- The folder after an object was saved at a path, and whether that worked. -/
def save (f : Folder) (object : Stored) (path : String) (e : Encoding) :
    Folder × Except StoreFault Unit :=
  match placeOf path with
  | .file name =>
    let made := f.put name []
    match object.toBytes e with
    | .ok bytes => (made.put name bytes, .ok ())
    | .error fault => (made, .error fault)
  | _ => (f, .error .io)

/-- The object of a kind that is stored at a path. -/
def load (f : Folder) (kind : ObjectKind) (path : String) (e : Encoding) :
    Except StoreFault Stored :=
  match placeOf path with
  | .folder => .error .io
  | .file name =>
    match f.contents? name with
    | some bytes => Stored.ofBytes kind e bytes
    | none => .error (.fileNotFound path)
  | .nowhere => .error (.fileNotFound path)

end Folder

end StepSignal
