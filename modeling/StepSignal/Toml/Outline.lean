import StepSignal.Document

/-!
# Building up the maps of TOML

The maps of a text are not written as such. They grow line by line, from headers and from names with
points between them, and a map may be opened in one place and continued in another. `Node` records how
each map came about, because that decides whether it can be continued:

* a map that only stands between two names of a header may still get a header of its own;
* a map that was made by a name with points may get more entries of the same kind;
* a map that has its header may get neither.

The section that lines are being added to is kept apart from the whole until it is complete.
-/

namespace StepSignal.Toml

/-- How a map came about. -/
structure Origin where
  /-- It was not asked for by itself. -/
  implied : Bool
  /-- It was made by a name with points, and not by a header. -/
  dotted : Bool
deriving DecidableEq

/-- A map with a header of its own. -/
def Origin.own : Origin := ⟨false, false⟩

/-- What a name stands for. -/
inductive Node where
  | value (d : Document)
  | map (origin : Origin) (entries : List (String × Node))
  /-- The maps of a list, the last one first. -/
  | maps (last : List (String × Node)) (earlier : List (List (String × Node)))

/-- The names of a map and what they stand for. -/
abbrev Entries := List (String × Node)

/-- Puts a node in the place of the one that a name stands for, or at the end. -/
def Entries.put (entries : Entries) (name : String) (node : Node) : Entries :=
  if entries.any (·.1 == name) then
    entries.map fun entry => if entry.1 == name then (name, node) else entry
  else entries ++ [(name, node)]

/-- Changes the map at the end of a path. Maps that the path needs are made on the way; of a list of
maps the path goes on in the last one. With `dotted` the path is a name with points, which goes through
no map that has a header. -/
def edit (dotted : Bool) (origin : Origin) (entries : Entries)
    (change : Origin → Entries → Option Entries) : List String → Option Entries
  | [] => change origin entries
  | name :: path =>
    match entries.lookup name with
    | none =>
      (edit dotted ⟨true, dotted⟩ [] change path).map fun es =>
        entries.put name (.map ⟨true, dotted⟩ es)
    | some (.value _) => none
    | some (.maps last earlier) =>
      (edit dotted .own last change path).map fun es => entries.put name (.maps es earlier)
    | some (.map origin es) =>
      if dotted && !origin.implied then none
      else (edit dotted origin es change path).map fun es => entries.put name (.map origin es)

/-- A name with points: the maps it goes through, and the last name. -/
structure Path where
  front : List String
  last : String

/-- The path of some names, of which there has to be one. -/
def Path.ofNames? : List String → Option Path
  | [] => none
  | name :: rest => some ⟨(name :: rest).dropLast, (name :: rest).getLastD name⟩

/-- Adds a value under a name with points. The map it goes into has to be the one at hand or one that
was made by points as well. -/
def addValue (entries : Entries) (path : Path) (d : Document) : Option Entries :=
  edit true .own entries (fun origin es =>
    if origin.dotted = path.front.isEmpty || es.any (·.1 == path.last) then none
    else some (es ++ [(path.last, .value d)])) path.front

/-! ## Documents -/

mutual

/-- The document of a node. -/
def Node.toDocument : Node → Document
  | .value d => d
  | .map _ entries => .map (entryDocuments entries)
  | .maps last earlier => .list ((mapDocuments earlier).reverse ++ [.map (entryDocuments last)])

def entryDocuments : List (String × Node) → List (Document × Document)
  | [] => []
  | (name, node) :: rest => (.text name, node.toDocument) :: entryDocuments rest

def mapDocuments : List (List (String × Node)) → List Document
  | [] => []
  | entries :: rest => .map (entryDocuments entries) :: mapDocuments rest

end

/-! ## Sections -/

/-- Where the lines that are being read belong. -/
inductive Section where
  /-- Before the first header. -/
  | root
  /-- The map of a header. -/
  | map (path : Path)
  /-- A new map of the list of a header. -/
  | item (path : Path)

/-- The text as read so far: the complete sections, and the one that is being read. -/
structure Outline where
  whole : Entries
  place : Section
  current : Entries

namespace Outline

/-- Before the first line. -/
def empty : Outline := ⟨[], .root, []⟩

/-- Puts the section that is being read in its place. -/
def close (o : Outline) : Option Entries :=
  match o.place with
  | .root => some o.current
  | .map path =>
    edit false .own o.whole (fun _ es => some (es.put path.last (.map .own o.current))) path.front
  | .item path =>
    edit false .own o.whole (fun _ es =>
      match es.lookup path.last with
      | some (.maps last earlier) => some (es.put path.last (.maps o.current (last :: earlier)))
      | _ => some (es.put path.last (.maps o.current []))) path.front

/-- The entries of the map at the end of a path; none when there is no map yet. -/
def entriesAt? (entries : Entries) : List String → Option Entries
  | [] => some entries
  | name :: path =>
    match entries.lookup name with
    | none => some []
    | some (.value _) => none
    | some (.maps last _) => entriesAt? last path
    | some (.map _ es) => entriesAt? es path

/-- Starts the section of a map. A map that only stood between two names so far keeps what it
holds; any other map or value of that name is in the way. -/
def openMap (o : Outline) (path : Path) : Option Outline := do
  let whole ← o.close
  match (← entriesAt? whole path.front).lookup path.last with
  | none => some ⟨whole, .map path, []⟩
  | some (.map ⟨true, false⟩ es) => some ⟨whole, .map path, es⟩
  | some _ => none

/-- Starts the section of a new map of a list. -/
def openItem (o : Outline) (path : Path) : Option Outline := do
  let whole ← o.close
  match (← entriesAt? whole path.front).lookup path.last with
  | none => some ⟨whole, .item path, []⟩
  | some (.maps ..) => some ⟨whole, .item path, []⟩
  | some _ => none

/-- Adds a value to the section that is being read. -/
def add (o : Outline) (path : Path) (d : Document) : Option Outline :=
  (addValue o.current path d).map fun current => { o with current }

/-- The document of the whole text. -/
def toDocument? (o : Outline) : Option Document :=
  o.close.map fun entries => .map (entryDocuments entries)

end Outline

end StepSignal.Toml
