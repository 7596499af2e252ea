import GibbsNewton.Tensor
import GibbsNewton.Text.Quoted

/-!
# Formulas

The formula matrix of a list of species has a row for each element and a column for each species,
and holds the number of atoms of the element in the species.  An element that a formula does not
mention has no atoms in it.

Formulas may come in any form from which the number of atoms of an element can be read; reading may
fail, and only the elements asked for are read.

## Main definitions

* `Formula.matrix` — the formula matrix of some species.
* `Formula.common` — the formulas of some common species.
-/

namespace GibbsNewton.Formula

/-- A species without formula, with the species that have one. -/
structure Unknown where
  /-- The species asked for. -/
  species : String
  /-- The species that have a formula. -/
  available : List String
  deriving DecidableEq, Repr

/-- The message about a species without formula. -/
def Unknown.message (e : Unknown) : String :=
  "No formula for species: " ++ e.species ++ ". Available: " ++ Quoted.quoteList e.available

/-- Why a formula matrix could not be made, where reading a number of atoms fails with `ε`. -/
inductive MatrixError (ε : Type)
  /-- A species has no formula. -/
  | unknown (e : Unknown)
  /-- A number of atoms could not be read. -/
  | count (e : ε)
  deriving DecidableEq, Repr

variable {α γ ε : Type}

/-- The numbers of atoms of the elements in a species. -/
def column (atoms : γ → String → Except ε α) (table : List (String × γ)) (elements : List String)
    (species : String) : Except (MatrixError ε) (List α) :=
  match table.lookup species with
  | none => .error (.unknown { species, available := table.map (·.1) })
  | some formula => (elements.mapM (atoms formula)).mapError .count

/-- The array with the given columns, each as long as there are rows. -/
def ofColumns (rows : Nat) (columns : List (List α)) : Tensor α where
  shape := [rows, columns.length]
  entries := (List.range rows).flatMap fun i => columns.filterMap (·[i]?)

/-- The formula matrix of some species with respect to some elements. -/
def matrix (atoms : γ → String → Except ε α) (table : List (String × γ))
    (species elements : List String) : Except (MatrixError ε) (Tensor α) :=
  (species.mapM (column atoms table elements)).map (ofColumns elements.length)

/-! ### Common species -/

/-- A formula whose numbers of atoms are whole. -/
abbrev Atoms := List (String × Nat)

/-- The formulas of some common species. -/
def common : List (String × Atoms) := [
  ("N2", [("N", 2)]), ("CO2", [("C", 1), ("O", 2)]), ("H2O", [("H", 2), ("O", 1)]),
  ("CO", [("C", 1), ("O", 1)]), ("H2", [("H", 2)]), ("O2", [("O", 2)]),
  ("NO", [("N", 1), ("O", 1)]), ("OH", [("O", 1), ("H", 1)]), ("H", [("H", 1)]), ("O", [("O", 1)]),
  ("NH3", [("N", 1), ("H", 3)]), ("CH4", [("C", 1), ("H", 4)]),
  ("C_graphite", [("C", 1)]), ("Al2O3", [("Al", 2), ("O", 3)]),
  ("Al", [("Al", 1)]), ("AlO", [("Al", 1), ("O", 1)])]

end GibbsNewton.Formula
