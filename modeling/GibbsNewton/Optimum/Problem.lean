import GibbsNewton.Kkt.System

/-!
# Optimisation problems

Minimise an objective of `n` variables that must be positive and meet `m` equations.  A problem is
given by functions of the point alone, so it can be evaluated anywhere and any number of times.

## Main definitions

* `Optimum.Problem` — the objective, its derivatives, the constraints and their Jacobian.
* `Optimum.Evaluation`, `Optimum.Problem.evaluate` — the values at a point.
* `Optimum.HessianScheme` — whether second derivatives are used in full.
* `Optimum.Problem.feasibility` — the problem with the objective left out.
-/

namespace GibbsNewton.Optimum

variable {α : Type} {n m : Nat}

/-- Minimise `objective x` subject to `constraint x = 0` and `x > 0`. -/
structure Problem (α : Type) (n m : Nat) where
  /-- The objective. -/
  objective : Vec α n → α
  /-- Its gradient. -/
  gradient : Vec α n → Vec α n
  /-- Its second derivatives, given the point and the gradient there. -/
  hessian : Vec α n → Vec α n → Hessian α n
  /-- The constraints, met where they vanish. -/
  constraint : Vec α n → Vec α m
  /-- Their Jacobian. -/
  jacobian : Vec α n → Mat α m n

/-- The values of a problem at a point, second derivatives apart. -/
structure Evaluation (α : Type) (n m : Nat) where
  /-- The objective. -/
  objective : α
  /-- The gradient. -/
  gradient : Vec α n
  /-- The constraints. -/
  constraint : Vec α m
  /-- The Jacobian. -/
  jacobian : Mat α m n

/-- The values of a problem at a point. -/
def Problem.evaluate (p : Problem α n m) (x : Vec α n) : Evaluation α n m where
  objective := p.objective x
  gradient := p.gradient x
  constraint := p.constraint x
  jacobian := p.jacobian x

/-- Whether second derivatives are used in full or only their diagonal. -/
inductive HessianScheme
  /-- In full. -/
  | exact
  /-- The diagonal alone. -/
  | diagonal
  deriving DecidableEq, Repr, Inhabited

namespace HessianScheme

/-- Every scheme, in the order in which they are offered. -/
def all : List HessianScheme := [exact, diagonal]

/-- The name by which a scheme is chosen. -/
def name : HessianScheme → String
  | exact => "exact"
  | diagonal => "diagonal"

/-- The scheme of a name. -/
def ofName? (s : String) : Option HessianScheme := all.find? (·.name == s)

end HessianScheme

variable [Scalar α]

/-- Whether every value is finite. -/
def Evaluation.isFinite (e : Evaluation α n m) : Bool :=
  Scalar.isFinite e.objective && e.gradient.isFinite && e.constraint.isFinite &&
    e.jacobian.isFinite

/-- Second derivatives in the form a scheme asks for. -/
def HessianScheme.apply (s : HessianScheme) (H : Hessian α n) : Hessian α n :=
  match s with
  | exact => .dense H.toMat
  | diagonal => .diagonal H.toDiagonal

/-- The problem of finding a positive point that meets the constraints: the objective is zero. -/
def Problem.feasibility (p : Problem α n m) : Problem α n m where
  objective _ := 0
  gradient _ := Vec.const n 0
  hessian _ _ := .diagonal (Vec.const n 0)
  constraint := p.constraint
  jacobian := p.jacobian

end GibbsNewton.Optimum
