import GibbsNewton.Text.Quoted

/-!
# Public names

The names under which parts of the package can be asked for at run time, grouped by the module that
offers them.

## Main definitions

* `Exports.lookup` — the part of a name.
* `Exports.version` — the version of the package.
-/

namespace GibbsNewton.Exports

/-- The version of the package. -/
def version : String := "0.1.0"

/-- The modules with the names that each of them offers. -/
def modules : List (String × List String) := [
  ("peq", ["equilibrate", "EquilibriumSolver", "OptimumSolverIpnewton"]),
  ("peq.core", [
    "OptimumProblem", "OptimumState", "OptimumOptions", "OptimumResult", "KktOptions",
    "IpnewtonOptions", "OutputOptions", "EquilibriumProblem", "EquilibriumOptions",
    "EquilibriumResult", "EquilibriumSolver", "equilibrate", "build_formula_matrix",
    "ChemicalSolver"])]

/-- A name that a module does not offer. -/
structure Missing where
  /-- The module. -/
  module : String
  /-- The name. -/
  name : String
  deriving DecidableEq, Repr

/-- The message about a name that a module does not offer. -/
def Missing.message (e : Missing) : String :=
  "module " ++ Quoted.quote e.module ++ " has no attribute " ++ Quoted.quote e.name

/-- The part that a module offers under a name. -/
def lookup (module name : String) : Except Missing String :=
  if ((modules.lookup module).getD []).contains name then .ok name else .error ⟨module, name⟩

end GibbsNewton.Exports
