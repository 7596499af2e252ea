import GibbsNewton.Linear.Vec
import GibbsNewton.Value.Text

/-!
# Phases

The species of a mixture are shared out among its phases: every species is in one phase and in no
other.  A caller names the species of a phase by whole numbers, and phases that leave a species out,
list one twice, or name one that does not exist are refused with the sorted list of what they name.

Within a phase of two or more species the logarithm of a species' share of the phase adds to its
potential; a gas phase adds the logarithm of the pressure for each of its species.

## Main definitions

* `PhaseSpec` — a phase as a caller gives it.
* `Phase` — a phase of a mixture of known size.
* `Phase.index?` — its species as an index into vectors.
* `isPartition` — whether phases share out all species.
* `Phase.ofSpec?` — the phase that a specification stands for.
* `PartitionError` — the refusal of phases that do not share out all species.
-/

namespace GibbsNewton

/-- A phase as a caller gives it. -/
structure PhaseSpec where
  /-- Its name. -/
  name : String
  /-- The numbers of its species, from zero. -/
  species : List Int
  /-- Its kind; only gases feel the pressure. -/
  kind : String := "gas"
  deriving DecidableEq, Repr

/-- A phase of a mixture of `n` species. -/
structure Phase (n : Nat) where
  /-- Its name. -/
  name : String
  /-- Its kind. -/
  kind : String
  /-- Its species, in the order in which sums over the phase are taken. -/
  species : List (Fin n)
  deriving DecidableEq, Repr

variable {n : Nat}

namespace Phase

/-- Whether the phase is a gas. -/
def isGas (p : Phase n) : Bool := p.kind == "gas"

/-- Whether the phase has two or more species, so that they dilute each other. -/
def isMixed (p : Phase n) : Bool := decide (1 < p.species.length)

/-- Whether the phase is a gas without species, which has no potentials to raise. -/
def isEmptyGas (p : Phase n) : Bool := p.isGas && p.species.isEmpty

/-- The species of the phase as an index into vectors.  A list without entries is none: nothing tells
that its entries would be whole numbers. -/
def index? (p : Phase n) : Option (List (Fin n)) := if p.species.isEmpty then none else some p.species

/-- The amount of matter in a phase. -/
def total {α : Type} [Scalar α] (p : Phase n) (amounts : Vec α n) : α :=
  p.species.foldl (fun s i => s + amounts i) 0

end Phase

/-- All species of some phases, in order. -/
def covered (phases : List (Phase n)) : List (Fin n) := phases.flatMap Phase.species

/-- Whether every species is listed exactly once. -/
def isPartition (phases : List (Phase n)) : Bool :=
  (List.finRange n).all fun i => (covered phases).count i == 1

theorem isPartition_iff {phases : List (Phase n)} :
    isPartition phases = true ↔ ∀ i, (covered phases).count i = 1 := by
  simp [isPartition, List.all_eq_true]

/-! ### Specifications -/

/-- Phases that do not share out all species. -/
structure PartitionError where
  /-- The number of species. -/
  species : Nat
  /-- The numbers that the phases list, sorted. -/
  listed : List Int
  deriving DecidableEq, Repr

/-- The message about phases that do not share out all species. -/
def PartitionError.message (e : PartitionError) : String :=
  "Phases must partition the " ++ toString e.species ++ " species exactly once, got indices " ++
    Value.enclose "[" "]" (e.listed.map toString)

/-- The species of a number. -/
def speciesOf? (n : Nat) (i : Int) : Option (Fin n) :=
  (List.finRange n).find? fun k => (k.val : Int) == i

/-- The phase of a specification whose species all exist. -/
def Phase.ofSpec? (n : Nat) (s : PhaseSpec) : Option (Phase n) :=
  (s.species.mapM (speciesOf? n)).map fun species => { name := s.name, kind := s.kind, species }

/-- The specification of a single gas of all species. -/
def PhaseSpec.singleGas (n : Nat) : PhaseSpec where
  name := "gas"
  species := (List.range n).map Int.ofNat

/-- The refusal of specifications. -/
def PartitionError.ofSpecs (n : Nat) (specs : List PhaseSpec) : PartitionError where
  species := n
  listed := (specs.flatMap PhaseSpec.species).mergeSort

end GibbsNewton
