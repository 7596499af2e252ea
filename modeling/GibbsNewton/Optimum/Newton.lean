import GibbsNewton.Optimum.Trace

/-!
# The Newton solver

A solver that can be used for one problem after the other.  Between two runs it keeps the solver of
its Newton systems and the table of the last run; neither has any influence on the next run.

## Main definitions

* `Optimum.Newton` — the solver, with `Newton.solve` and `Newton.feasible`.
-/

namespace GibbsNewton.Optimum

/-- What a solver keeps between two runs. -/
structure Newton (α : Type) where
  /-- The solver of the Newton systems. -/
  kkt : Kkt.Solver α := .new .fullspace
  /-- The table of the last run. -/
  table : Table α := { layout := {} }

namespace Newton

variable {α : Type} [Scalar α] {n m : Nat}

/-- Solves a problem from a start, unless the options are refused. -/
def solve (w : Newton α) (p : Problem α n m) (o : Options α) (s : Start α) :
    Except (OptionError α) (Run α n m × Newton α) := do
  let settings ← o.check
  let (run, kkt) := p.run settings w.kkt s
  return (run, { kkt, table := run.record settings.output })

/-- Finds a positive point that meets the constraints of a problem: the objective is left out, and
second derivatives are handled by the diagonal and the range-space method whatever is asked for. -/
def feasible (w : Newton α) (p : Problem α n m) (o : Options α) (s : Start α) :
    Except (OptionError α) (Run α n m × Newton α) :=
  w.solve p.feasibility o.forFeasibility s

end Newton

end GibbsNewton.Optimum
