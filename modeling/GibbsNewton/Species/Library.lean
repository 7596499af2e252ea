import GibbsNewton.Species.Record
import GibbsNewton.Json.Reader

/-!
# Species libraries

A library reads species files on demand and remembers what it read, so a file is read again only on
request.  A file that cannot be read leaves everything remembered as it was.

Which paths lead to one file is for the system to say: a library is given the file that each path
stands for.  In a tree of directories without links the pieces of the path tell.  A path may be left
out, and the library's standing path is used instead, if it has one.

## Main definitions

* `resolvePath` — the file of a path where no directory is a link.
* `Catalogue` — the species of a file.
* `SpeciesLibrary` — the files, the standing path and what is remembered.
* `SpeciesLibrary.load` — the species of a file, as remembered or read.
-/

namespace GibbsNewton

/-! ### Paths -/

/-- A path followed piece by piece from the pieces so far, which are listed backwards.  Nothing is
above the root. -/
def followPath : List String → List String → List String
  | done, [] => done.reverse
  | done, piece :: pieces =>
    if piece = "" ∨ piece = "." then followPath done pieces
    else if piece = ".." then followPath done.tail pieces
    else followPath (piece :: done) pieces

/-- The file that a path stands for where no directory is a link, as the names of the directories to
it from the root; a path that does not begin at the root begins at the working directory. -/
def resolvePath (working : List String) (path : String) : List String :=
  followPath (if path.toList.head? == some '/' then [] else working.reverse) (path.splitOn "/")

/-! ### Libraries -/

/-- The species of a file as they were read at some time. -/
structure Catalogue where
  /-- The number of the reading. -/
  reading : Nat
  /-- The species, in the order of the file. -/
  species : List Species

/-- Files out of `κ`, and the species read from them so far. -/
structure SpeciesLibrary (κ : Type) where
  /-- The file that a path stands for. -/
  resolve : String → κ
  /-- The texts of the files that there are. -/
  files : List (κ × String) := []
  /-- The path used when none is given. -/
  standing : Option String := none
  /-- What was read last from each file. -/
  remembered : List (κ × Catalogue) := []
  /-- The number of readings so far. -/
  readings : Nat := 0

/-- Why species could not be loaded. -/
inductive LoadError
  /-- No path is given and none is standing. -/
  | noPath
  /-- There is no such file. -/
  | noFile
  /-- The file is no JSON text. -/
  | malformed
  /-- A record cannot be read. -/
  | record (e : Species.ReadError)
  deriving DecidableEq, Repr

/-- The message about a missing path. -/
def noPathMessage : String :=
  "No species database given; pass a path or set PEQ_SPECIES_DB"

/-- A name that is no species, with the names that are. -/
structure UnknownSpecies where
  /-- The name asked for. -/
  name : String
  /-- The names known. -/
  available : List String
  deriving DecidableEq, Repr

/-- The message about a name that is no species. -/
def UnknownSpecies.message (e : UnknownSpecies) : String :=
  "Unknown species: " ++ e.name ++ ". Available: " ++ Quoted.quoteList e.available

namespace Catalogue

/-- The names of the species. -/
def names (c : Catalogue) : List String := c.species.map Species.name

/-- The species with their names. -/
def entries (c : Catalogue) : List (String × Species) := c.species.map fun s => (s.name, s)

/-- The species of a name. -/
def get (c : Catalogue) (name : String) : Except UnknownSpecies Species :=
  match c.species.find? (·.name == name) with
  | some s => .ok s
  | none => .error { name, available := c.names }

/-- The species of a phase with their names. -/
def ofPhase (c : Catalogue) (phase : String) : List (String × Species) :=
  c.entries.filter fun (_, s) =>
    match s.phase with
    | .text p => p == phase
    | _ => false

end Catalogue

namespace SpeciesLibrary

variable {κ : Type} [DecidableEq κ]

/-- An entry of an association list, put in place of one with the same key. -/
def replace {β : Type} (entries : List (κ × β)) (key : κ) (value : β) : List (κ × β) :=
  (key, value) :: entries.filter fun entry => !(entry.1 == key)

/-- Writes a file. -/
def write (l : SpeciesLibrary κ) (path text : String) : SpeciesLibrary κ :=
  { l with files := replace l.files (l.resolve path) text }

/-- Removes a file, if there is one. -/
def remove? (l : SpeciesLibrary κ) (path : String) : Option (SpeciesLibrary κ) :=
  let key := l.resolve path
  if l.files.any (·.1 == key) then
    some { l with files := l.files.filter fun entry => !(entry.1 == key) }
  else none

/-- Sets or unsets the standing path. -/
def setStanding (l : SpeciesLibrary κ) (path : Option String) : SpeciesLibrary κ :=
  { l with standing := path }

/-- What a successful loading leaves behind. -/
structure Loaded (κ : Type) where
  /-- The species. -/
  catalogue : Catalogue
  /-- The messages about dropped fits of a fresh reading. -/
  warnings : List String
  /-- The library afterwards. -/
  library : SpeciesLibrary κ

/-- Reads a file afresh. -/
def read (l : SpeciesLibrary κ) (key : κ) : Except LoadError (Loaded κ) :=
  match l.files.lookup key with
  | none => .error .noFile
  | some text =>
    match Json.read? text with
    | none => .error .malformed
    | some file =>
      match Species.readAll file with
      | .error e => .error (.record e)
      | .ok records =>
        let catalogue : Catalogue := { reading := l.readings, species := records.map (·.1) }
        .ok {
          catalogue
          warnings := records.filterMap fun (s, dropped) =>
            if dropped then some (Species.droppedMessage s.name) else none
          library := { l with
            remembered := replace l.remembered key catalogue
            readings := l.readings + 1 } }

/-- The species of a file: as remembered, unless a fresh reading is asked for or needed. -/
def load (l : SpeciesLibrary κ) (path : Option String) (reload : Bool) : Except LoadError (Loaded κ) :=
  match path.or l.standing with
  | none => .error .noPath
  | some path =>
    let key := l.resolve path
    match if reload then none else l.remembered.lookup key with
    | some catalogue => .ok { catalogue, warnings := [], library := l }
    | none => l.read key

end SpeciesLibrary

end GibbsNewton
