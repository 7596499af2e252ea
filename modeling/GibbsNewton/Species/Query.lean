import GibbsNewton.Species.Library

/-!
# Queries on species

What a caller may ask about the species of a file.  A query about no species at all is answered
without the file; every other query loads it first.  A query that cannot be answered still leaves
behind what was loaded for it.

## Main definitions

* `Query`, `Reply` — the queries and their answers.
* `Catalogue.reply` — the answer from loaded species.
* `SpeciesLibrary.ask` — the answer from a file.
-/

namespace GibbsNewton

/-- A query about the species of a file. -/
inductive Query
  /-- All species, from a fresh reading if asked for. -/
  | load (reload : Bool)
  /-- The names of all species. -/
  | list
  /-- The species of a phase. -/
  | phase (phase : String)
  /-- The record of a species. -/
  | record (name : String)
  /-- The coefficients of a species that hold at a temperature. -/
  | coefficients (name : String) (t : Float)
  /-- The formula matrix of species with respect to elements. -/
  | matrix (names elements : List String)
  /-- The standard potentials of species at a temperature. -/
  | potentials (names : List String) (t : Float)

/-- The answer to a query. -/
inductive Reply
  /-- All species, with the number of the reading that they are from. -/
  | loaded (c : Catalogue)
  /-- Names of species. -/
  | names (names : List String)
  /-- Some species with their names. -/
  | species (entries : List (String × Species))
  /-- A record. -/
  | record (s : Species)
  /-- Coefficients. -/
  | coefficients (c : Tensor Float)
  /-- A formula matrix. -/
  | matrix (W : Tensor Float)
  /-- Standard potentials. -/
  | potentials (values : List Float)

/-- Why a query has no answer. -/
inductive QueryError
  /-- The file could not be loaded. -/
  | load (e : LoadError)
  /-- A name is no species. -/
  | unknown (e : UnknownSpecies)
  /-- The potentials could not be computed, or no range of temperatures could be chosen. -/
  | potentials (e : Species.PotentialError)
  deriving DecidableEq, Repr

namespace Query

/-- Whether a query can only be answered from the file. -/
def needsFile : Query → Bool
  | matrix names _ => !names.isEmpty
  | potentials names _ => !names.isEmpty
  | _ => true

/-- Whether a query asks for a fresh reading. -/
def reloads : Query → Bool
  | load reload => reload
  | _ => false

end Query

namespace Catalogue

/-- The species of several names. -/
def getAll (c : Catalogue) (names : List String) : Except QueryError (List Species) :=
  (names.mapM c.get).mapError .unknown

/-- The answer to a query from loaded species. -/
def reply (c : Catalogue) : Query → Except QueryError Reply
  | .load _ => .ok (.loaded c)
  | .list => .ok (.names c.names)
  | .phase phase => .ok (.species (c.ofPhase phase))
  | .record name => do return .record (← (c.get name).mapError .unknown)
  | .coefficients name t => do
    let s ← (c.get name).mapError .unknown
    match s.coefficients? t with
    | some fit => return .coefficients fit
    | none => throw (.potentials .midpoint)
  | .matrix names elements => do return .matrix (Species.formulaMatrix (← c.getAll names) elements)
  | .potentials names t => do
    return .potentials (← (Species.potentials (← c.getAll names) t).mapError .potentials)

end Catalogue

/-- The species of no file. -/
def Catalogue.empty : Catalogue := { reading := 0, species := [] }

/-- The answer to a query, the messages printed for it, and the library afterwards. -/
def SpeciesLibrary.ask {κ : Type} [DecidableEq κ] (l : SpeciesLibrary κ) (path : Option String)
    (q : Query) : Except QueryError Reply × List String × SpeciesLibrary κ :=
  if q.needsFile then
    match l.load path q.reloads with
    | .error e => (.error (.load e), [], l)
    | .ok loaded => (loaded.catalogue.reply q, loaded.warnings, loaded.library)
  else (Catalogue.empty.reply q, [], l)

end GibbsNewton
