import GibbsNewton.Equilibrium.Problem
import GibbsNewton.Optimum.Options

/-!
# Options of an equilibrium calculation

What a caller may ask of an equilibrium calculation.  The choice of second derivatives also settles
how the run handles them: a diagonal goes with the diagonal scheme and the range-space method, all
else with the full scheme and the method asked for.

## Main definitions

* `Equilibrium.Options` — what is asked for.
* `Equilibrium.Options.check` — the choices made by name.
* `Equilibrium.Options.paired` — the options of the run.
-/

namespace GibbsNewton.Equilibrium

/-- How the optimisation problem is solved. -/
inductive Method
  /-- By Newton runs. -/
  | newton
  /-- By a constrained minimiser. -/
  | minimiser
  deriving DecidableEq, Repr, Inhabited

namespace Method

/-- Every method, in the order in which they are offered. -/
def all : List Method := [newton, minimiser]

/-- The name of a method. -/
def name : Method → String
  | newton => "ipnewton"
  | minimiser => "scipy"

/-- The method of a name. -/
def ofName? (s : String) : Option Method := all.find? (·.name == s)

/-- A name that is no method. -/
def unknown (name : String) : UnknownName := ⟨"equilibrium method", name, all.map Method.name⟩

end Method

/-- A name that is no choice of second derivatives. -/
def Scheme.unknown (name : String) : UnknownName := ⟨"Gibbs Hessian", name, all.map Scheme.name⟩

/-- Options as a caller gives them. -/
structure Options (α : Type) where
  /-- The name of the choice of second derivatives. -/
  hessian : String := "exact"
  /-- The name of the method. -/
  method : String := "ipnewton"
  /-- Whether a feasible point is searched for first. -/
  feasibility : Bool := false
  /-- Whether the last result is where to start from. -/
  warmstart : Bool := true
  /-- The options of the run. -/
  optimum : Optimum.Options α

namespace Options

variable {α : Type}

/-- The choices made by name, the second derivatives first. -/
def check (o : Options α) : Except UnknownName (Scheme × Method) :=
  match Scheme.ofName? o.hessian with
  | none => .error (Scheme.unknown o.hessian)
  | some scheme =>
    match Method.ofName? o.method with
    | none => .error (Method.unknown o.method)
    | some method => .ok (scheme, method)

/-- Whether a name asks for a diagonal. -/
def asksDiagonal (name : String) : Bool := "diagonal".toList.isSuffixOf name.toList

/-- The options of the run that go with the choice of second derivatives. -/
def paired (o : Options α) : Optimum.Options α :=
  if asksDiagonal o.hessian then
    { o.optimum with
      hessian := Optimum.HessianScheme.diagonal.name
      kkt := Kkt.Method.rangespace.name }
  else { o.optimum with hessian := Optimum.HessianScheme.exact.name }

/-- The options when nothing is asked for. -/
def default [Scalar α] : Options α := { optimum := .default }

end Options

end GibbsNewton.Equilibrium
