import GibbsNewton.Optimum.Options

/-!
# Iterates

The points that a run goes through, from the start that a caller gives to the residuals that decide
when to stop.

A start may have any sizes and signs.  A vector of the wrong size counts as zeros; the variables
are then raised to a small positive bound, and a bound multiplier that is not positive is replaced
by the one that is central there.

## Main definitions

* `Optimum.Start`, `Optimum.Start.iterate` — a caller's start, and the interior point made of it.
* `Optimum.Iterate`, `Optimum.State` — a point, and a point with the values there.
* `fractionToBoundary` — how far a positive vector may move along a direction.
* `Optimum.Iterate.lengths`, `Optimum.Iterate.step` — one safeguarded step.
* `Optimum.Residuals`, `Optimum.State.residuals` — how far a state is from optimal.
-/

namespace GibbsNewton

/-- The longest step, at most one, along which every entry of a positive `p` that shrinks keeps at
least the share `1 - tau` of itself.  A ratio that is not a number is passed on. -/
def fractionToBoundary {α : Type} [Scalar α] {n : Nat} (p dp : Vec α n) (tau : α) : α :=
  Fin.foldl n
    (fun t i => Scalar.minimum t (if Scalar.lt (dp i) 0 then -tau * p i / dp i else 1)) 1

/-- A list read as a vector of a size; one of another length counts as zeros. -/
def Vec.sized {α : Type} [Scalar α] (n : Nat) (xs : List α) : Vec α n :=
  (Vec.ofList? n xs).getD (Vec.const n 0)

namespace Optimum

variable {α : Type} {n m : Nat}

/-! ### Points -/

/-- A start as a caller gives it. -/
structure Start (α : Type) where
  /-- The variables. -/
  x : List α := []
  /-- The constraint multipliers. -/
  y : List α := []
  /-- The bound multipliers. -/
  z : List α := []

/-- A point of a run. -/
structure Iterate (α : Type) (n m : Nat) where
  /-- The variables. -/
  x : Vec α n
  /-- The constraint multipliers. -/
  y : Vec α m
  /-- The bound multipliers. -/
  z : Vec α n

/-- The start that goes on from a point. -/
def Iterate.toStart (u : Iterate α n m) : Start α := ⟨u.x.toList, u.y.toList, u.z.toList⟩

/-- A point of a run with the values of the problem there. -/
structure State (α : Type) (n m : Nat) extends Iterate α n m where
  /-- The values of the problem. -/
  values : Evaluation α n m

/-- A point with the values of a problem there. -/
def Iterate.evaluate (u : Iterate α n m) (p : Problem α n m) : State α n m :=
  { u with values := p.evaluate u.x }

variable [Scalar α]

/-- The interior point made of a start, for a barrier parameter and the multiple of it that bounds
the variables from below. -/
def Start.iterate (s : Start α) (mu mux : α) (n m : Nat) : Iterate α n m :=
  let x := (Vec.sized n s.x).map fun a => Scalar.maximum a (mux * mu)
  let z := Vec.sized n s.z
  { x
    y := Vec.sized m s.y
    z := Vec.of fun i => if Scalar.lt 0 (z i) then z i else mu / x i }

/-! ### Steps -/

/-- The lengths of a step. -/
structure StepLengths (α : Type) where
  /-- The common length. -/
  common : α
  /-- The length for the variables. -/
  primal : α
  /-- The length for the bound multipliers. -/
  dual : α

/-- The longest safe lengths along a direction. -/
def Iterate.lengths (u : Iterate α n m) (d : Kkt.Direction α n m) (tau : α) : StepLengths α :=
  let primal := fractionToBoundary u.x d.dx tau
  let dual := fractionToBoundary u.z d.dz tau
  { common := Scalar.firstMin primal dual, primal, dual }

/-- The point reached along a direction: with one common length for all, or with a length each for
the variables and the bound multipliers and the full step for the constraint multipliers. -/
def Iterate.step (u : Iterate α n m) (d : Kkt.Direction α n m) (t : StepLengths α)
    (uniform : Bool) : Iterate α n m :=
  if uniform then
    { x := u.x.move t.common d.dx
      y := u.y.move t.common d.dy
      z := u.z.move t.common d.dz }
  else
    { x := u.x.move t.primal d.dx
      y := u.y.add d.dy
      z := u.z.move t.dual d.dz }

/-! ### Residuals -/

/-- How far a state is from optimal, each in the largest-entry norm. -/
structure Residuals (α : Type) where
  /-- Of `g - Aᵀ y - z`. -/
  stationarity : α
  /-- Of the constraints. -/
  feasibility : α
  /-- Of `x ∘ z - mu`. -/
  centrality : α

/-- The largest residual; a first one that is not a number stays, a later one never counts. -/
def Residuals.worst (r : Residuals α) : α :=
  Scalar.firstMax (Scalar.firstMax r.stationarity r.feasibility) r.centrality

namespace State

/-- The gradient of the Lagrangian, `g - Aᵀ y - z`. -/
def lagrangian (s : State α n m) : Vec α n :=
  (s.values.gradient.sub (s.values.jacobian.transposeMulVec s.y)).sub s.z

/-- How far each product of a variable and its multiplier is from the barrier parameter. -/
def complementarity (s : State α n m) (mu : α) : Vec α n := Vec.of fun i => s.x i * s.z i - mu

/-- The residuals of a state. -/
def residuals (s : State α n m) (mu : α) : Residuals α where
  stationarity := s.lagrangian.normInf
  feasibility := s.values.constraint.normInf
  centrality := (s.complementarity mu).normInf

/-- The Newton system at a state. -/
def system (s : State α n m) (p : Problem α n m) (scheme : HessianScheme) : Kkt.System α n m where
  hessian := scheme.apply (p.hessian s.x s.values.gradient)
  jacobian := s.values.jacobian
  x := s.x
  z := s.z

/-- The right-hand side of the Newton system at a state. -/
def rhs (s : State α n m) (mu : α) : Kkt.Rhs α n m where
  rx := s.lagrangian.map (-·)
  ry := s.values.constraint.map (-·)
  rz := (s.complementarity mu).map (-·)

end State

end Optimum

end GibbsNewton
