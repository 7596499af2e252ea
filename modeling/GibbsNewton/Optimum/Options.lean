import GibbsNewton.Choice
import GibbsNewton.Kkt.Solver
import GibbsNewton.Optimum.Problem
import GibbsNewton.Table

/-!
# Options of a run

What a caller may ask of a run, and the settings that come out of it once every choice has been
looked up and every bound has been checked.  The checks are made in a fixed order and the first one
that fails is reported.

## Main definitions

* `Optimum.Options` — what is asked for; `Optimum.Options.default` — when nothing is.
* `Optimum.Settings` — checked options.
* `Optimum.Options.check` — the check; `Optimum.OptionError` — what it may complain about.
-/

namespace GibbsNewton.Optimum

/-- Options as a caller gives them. -/
structure Options (α : Type) where
  /-- A run has converged when every residual is below this. -/
  tolerance : α
  /-- The largest number of iterations. -/
  maxIterations : Int
  /-- The name of the scheme for second derivatives. -/
  hessian : String
  /-- The name of the method for the Newton system. -/
  kkt : String
  /-- The barrier parameter, the same throughout a run. -/
  mu : α
  /-- The starting variables are at least this many times the barrier parameter. -/
  mux : α
  /-- The fraction of the way to the boundary that a step may go. -/
  tau : α
  /-- Whether variables and multipliers take steps of one common length. -/
  uniform : Bool
  /-- The table of the run. -/
  output : Layout

/-- Options whose choices exist and whose bounds hold. -/
structure Settings (α : Type) where
  /-- A run has converged when every residual is below this. -/
  tolerance : α
  /-- The largest number of iterations. -/
  maxIterations : Nat
  /-- The scheme for second derivatives. -/
  scheme : HessianScheme
  /-- The method for the Newton system. -/
  method : Kkt.Method
  /-- The barrier parameter. -/
  mu : α
  /-- The starting variables are at least this many times the barrier parameter. -/
  mux : α
  /-- The fraction of the way to the boundary that a step may go. -/
  tau : α
  /-- Whether variables and multipliers take steps of one common length. -/
  uniform : Bool
  /-- The table of the run. -/
  output : Layout

/-- Why options were refused. -/
inductive OptionError (α : Type)
  /-- A name stands for nothing. -/
  | unknown (e : UnknownName)
  /-- Less than one iteration is allowed. -/
  | iterations (given : Int)
  /-- The barrier parameter is not positive. -/
  | mu (given : α)
  /-- The fraction to the boundary is not strictly between zero and one. -/
  | tau (given : α)

/-- The message about refused options. -/
def OptionError.message : OptionError Float → String
  | unknown e => e.message
  | iterations n => "max_iterations must be >= 1, got " ++ toString n
  | mu x => "mu must be positive, got " ++ Decimal.shortest x
  | tau x => "tau must lie in (0, 1), got " ++ Decimal.shortest x

/-- A name that is no scheme. -/
def HessianScheme.unknown (name : String) : UnknownName :=
  ⟨"Hessian scheme", name, HessianScheme.all.map HessianScheme.name⟩

namespace Options

variable {α : Type} [Scalar α]

/-- The options when nothing is asked for. -/
def default : Options α where
  tolerance := Scalar.decimal 1 6
  maxIterations := 2000
  hessian := "exact"
  kkt := "fullspace"
  mu := Scalar.decimal 1 20
  mux := Scalar.decimal 1 5
  tau := Scalar.decimal 99 2
  uniform := false
  output := {}

/-- The settings that options stand for, if they pass every check. -/
def check (o : Options α) : Except (OptionError α) (Settings α) :=
  match HessianScheme.ofName? o.hessian with
  | none => .error (.unknown (HessianScheme.unknown o.hessian))
  | some scheme =>
    match Kkt.Method.ofName? o.kkt with
    | none => .error (.unknown (Kkt.Method.unknown o.kkt))
    | some method =>
      if o.maxIterations < 1 then .error (.iterations o.maxIterations)
      else if !Scalar.lt 0 o.mu then .error (.mu o.mu)
      else if !(Scalar.lt 0 o.tau && Scalar.lt o.tau 1) then .error (.tau o.tau)
      else
        .ok {
          tolerance := o.tolerance
          maxIterations := o.maxIterations.toNat
          scheme, method
          mu := o.mu
          mux := o.mux
          tau := o.tau
          uniform := o.uniform
          output := o.output }

/-- The options of a search for a feasible point: only the diagonal, by the range-space method. -/
def forFeasibility (o : Options α) : Options α :=
  { o with hessian := HessianScheme.diagonal.name, kkt := Kkt.Method.rangespace.name }

end Options

end GibbsNewton.Optimum
