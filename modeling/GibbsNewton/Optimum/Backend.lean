import GibbsNewton.Choice

/-!
# Solvers by name

The ways to solve an optimisation problem, as a caller chooses them by name.

## Main definitions

* `Optimum.Backend` — the ways.
* `Optimum.Backend.choose` — the way of a name.
-/

namespace GibbsNewton.Optimum

/-- A way to solve a problem. -/
inductive Backend
  /-- Newton runs. -/
  | newton
  /-- Newton runs for a feasible point, with the objective left out. -/
  | feasible
  /-- A constrained minimiser. -/
  | minimiser
  deriving DecidableEq, Repr, Inhabited

namespace Backend

/-- Every way, in the order in which they are offered. -/
def all : List Backend := [newton, feasible, minimiser]

/-- The name of a way. -/
def name : Backend → String
  | newton => "ipnewton"
  | feasible => "ipfeasible"
  | minimiser => "scipy"

/-- The name of the solver that goes a way. -/
def solverName : Backend → String
  | newton => "OptimumSolverIpnewton"
  | feasible => "OptimumSolverIpfeasible"
  | minimiser => "OptimumSolverScipy"

/-- The way of a name. -/
def ofName? (s : String) : Option Backend := all.find? (·.name == s)

/-- The way of a name, or the refusal of one that has none. -/
def choose (s : String) : Except UnknownName Backend :=
  match ofName? s with
  | some b => .ok b
  | none => .error ⟨"optimum method", s, all.map name⟩

end Backend

end GibbsNewton.Optimum
