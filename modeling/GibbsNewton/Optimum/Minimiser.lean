import GibbsNewton.Optimum.Run
import GibbsNewton.Linear.LeastSquares

/-!
# Solving with a constrained minimiser

Instead of iterating on all unknowns together, a problem may be handed to a minimiser that knows
only the variables.  Whatever point it answers is first raised to the interior; the bound
multipliers are then the central ones, and the constraint multipliers are those that leave the
least of the gradient of the Lagrangian.  The outcome counts as converged only if the minimiser
says so and the residuals agree.

Neither the minimiser nor the routine for least squares is part of the library: both are given, and
any will do.  One of either kind comes with the library all the same.  Its minimiser follows the
central path, with Newton runs whose barrier parameter shrinks from one run to the next; its least
squares are found by projecting out one row after another.

## Main definitions

* `Optimum.Minimiser`, `Optimum.Minimum` — a minimiser with its least squares, and what it answers.
* `Optimum.Minimiser.solve` — solving a problem with a minimiser.
* `Optimum.centralPath` — the minimiser that follows the central path.
-/

namespace GibbsNewton.Optimum

/-- What a minimiser answers. -/
structure Minimum (α : Type) (n : Nat) where
  /-- The point found, which need not be positive or feasible. -/
  x : Vec α n
  /-- Whether the minimiser claims success. -/
  succeeded : Bool
  /-- The number of its iterations. -/
  iterations : Nat

/-- The routines that solving with a minimiser rests on. -/
structure Minimiser (α : Type) where
  /-- What is answered to an objective over the feasible points, from a positive start. -/
  minimum : (n m : Nat) → Problem α n m → Settings α → Vec α n → Minimum α n
  /-- Coefficients of the rows of a matrix whose combination is to be nearest to a vector. -/
  leastSquares : (n m : Nat) → Mat α m n → Vec α n → Vec α m

variable {α : Type} [Scalar α] {n m : Nat}

/-- The state and the summary that a minimiser's answer leads to, from an interior start. -/
def Minimiser.finish (minimise : Minimiser α) (r : Minimum α n) (p : Problem α n m)
    (o : Settings α) (u : Iterate α n m) : State α n m × Report α :=
  let x := r.x.map fun a => Scalar.maximum a (o.mux * o.mu)
  let values := p.evaluate x
  if values.isFinite then
    let z := x.map fun a => o.mu / a
    let y := minimise.leastSquares n m values.jacobian (values.gradient.sub z)
    let state : State α n m := { x, y, z, values }
    let error := (state.residuals o.mu).worst
    let succeeded := r.succeeded && Scalar.lt error o.tolerance
    (state,
      { status := if succeeded then .converged else .iterationLimit
        iterations := r.iterations
        error := some error })
  else
    ({ x, y := u.y, z := u.z, values },
      { status := .numericFailure, iterations := r.iterations, error := none })

/-- Solves a problem with a minimiser, unless the options are refused. -/
def Minimiser.solve (minimise : Minimiser α) (p : Problem α n m) (o : Options α) (s : Start α) :
    Except (OptionError α) (State α n m × Report α) := do
  let settings ← o.check
  let u := s.iterate settings.mu settings.mux n m
  return minimise.finish (minimise.minimum n m p settings u.x) p settings u

/-! ### The central path -/

/-- The barrier parameters of the path: powers of a tenth. -/
def pathParameters : List α := (List.range 13).map fun k => Scalar.decimal 1 k

/-- The settings of a run on the path. -/
def pathSettings (mu : α) : Settings α where
  tolerance := Scalar.maximum mu (Scalar.decimal 1 9)
  maxIterations := 100
  scheme := .exact
  method := .fullspace
  mu := mu
  mux := 0
  tau := Scalar.decimal 99 2
  uniform := false
  output := {}

/-- Runs along the path from a start; answers the last state whose values are finite, the number of
iterations, and whether the last run converged. -/
def followPath (p : Problem α n m) : List α → Start α → Vec α n → Nat → Bool → Minimum α n
  | [], _, x, iterations, succeeded => { x, succeeded, iterations }
  | mu :: mus, s, _, iterations, _ =>
    let (run, _) := p.run (pathSettings mu) (.new .fullspace) s
    let last := run.lastUpdated
    let report := run.report
    followPath p mus last.toStart last.x (iterations + report.iterations) report.succeeded

/-- Minimises by following the central path, from a start that keeps clear of the boundary. -/
def centralPath : Minimiser α where
  minimum _ _ p _ x :=
    let x := x.map fun a => Scalar.maximum a (Scalar.decimal 1 1)
    followPath p pathParameters { x := x.toList } x 0 false
  leastSquares _ _ := Mat.leastSquares

end GibbsNewton.Optimum
