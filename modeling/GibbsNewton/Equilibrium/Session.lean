import GibbsNewton.Equilibrium.Options
import GibbsNewton.Optimum.Newton
import GibbsNewton.Optimum.Minimiser

/-!
# Equilibrium sessions

A session solves one equilibrium problem after the other and keeps the last result, so that the next
calculation can start from it.  A calculation may be preceded by a search for a feasible point, whose
outcome is kept in the result as well, also when the calculation itself is then refused.

## Main definitions

* `Equilibrium.Result` — amounts, multipliers and summaries.
* `Equilibrium.Session` — the state between two calculations.
* `Equilibrium.Session.findFeasible` — the search for a feasible point.
* `Equilibrium.Session.solve` — a calculation.
-/

namespace GibbsNewton.Equilibrium

/-- The result of a calculation. -/
structure Result (α : Type) where
  /-- The amounts, the element potentials and the bound multipliers. -/
  point : Optimum.Start α := {}
  /-- The summary of the last calculation. -/
  optimum : Optimum.Report α := {}
  /-- The summary of the last search for a feasible point. -/
  feasibility : Option (Optimum.Report α) := none

/-- The state between two calculations. -/
structure Session (α : Type) where
  /-- The solver of the problems. -/
  newton : Optimum.Newton α := {}
  /-- The solver that searches for feasible points. -/
  feasible : Optimum.Newton α := {}
  /-- The last result. -/
  result : Result α := {}

/-- Why a calculation came to no result. -/
inductive SolveError (α : Type)
  /-- Options were refused. -/
  | refused (e : Optimum.OptionError α)
  /-- The Gibbs energy cannot be evaluated. -/
  | notEvaluable

namespace Session

variable {α : Type} [Scalar α] {n m : Nat}

/-- Where a calculation starts: from the last result or from nothing. -/
def start (s : Session α) (warm : Bool) : Optimum.Start α := if warm then s.result.point else {}

/-- Searches for a feasible point and keeps it as the point of the result. -/
def findFeasible (s : Session α) (p : Problem α n m) (o : Options α) :
    Except (SolveError α) (Session α) := do
  let (scheme, _) ← o.check.mapError fun e => .refused (.unknown e)
  let (run, feasible) ← (s.feasible.feasible (p.optimum scheme) o.paired
    (s.start o.warmstart)).mapError .refused
  return { s with
    feasible
    result := { s.result with
      point := run.final.toStart
      feasibility := some run.report } }

/-- Optimises from a start and keeps the outcome. -/
def optimise (minimise : Optimum.Minimiser α) (s : Session α) (p : Problem α n m) (scheme : Scheme)
    (method : Method) (o : Optimum.Options α) (start : Optimum.Start α) :
    Except (SolveError α) (Session α) := do
  let _ ← o.check.mapError .refused
  if !p.model.isEvaluable then throw .notEvaluable
  match method with
  | .newton =>
    let (run, newton) ← (s.newton.solve (p.optimum scheme) o start).mapError .refused
    return { s with
      newton
      result := { s.result with
        point := run.final.toStart
        optimum := run.report } }
  | .minimiser =>
    let (state, report) ← (minimise.solve (p.optimum scheme) o start).mapError .refused
    return { s with
      result := { s.result with
        point := state.toStart
        optimum := report } }

/-- A calculation, after a search for a feasible point if one is asked for.  What the search found
stays in the session even if the calculation is refused. -/
def solve (minimise : Optimum.Minimiser α) (s : Session α) (p : Problem α n m) (o : Options α) :
    Except (SolveError α) Unit × Session α :=
  match o.check with
  | .error e => (.error (.refused (.unknown e)), s)
  | .ok (scheme, method) =>
    match if o.feasibility then s.findFeasible p o else .ok s with
    | .error e => (.error e, s)
    | .ok s =>
      match s.optimise minimise p scheme method o.paired (s.start (o.warmstart || o.feasibility)) with
      | .error e => (.error e, s)
      | .ok s => (.ok (), s)

end Session

end GibbsNewton.Equilibrium
