import GibbsNewton.Mixture.Derivative
import GibbsNewton.Optimum.Problem
import GibbsNewton.Tensor

/-!
# Equilibrium problems

A system is in equilibrium when its Gibbs energy is least among all positive amounts with the given
amounts of the elements:

    minimise G(a)   subject to   W a = b,   a > 0

where `W` is the formula matrix and `b` the element amounts.  The Gibbs energy is that of any model;
an ideal mixture is one.  Second derivatives are the true ones or those that the model offers in
their place, in full or on the diagonal alone.

## Main definitions

* `Equilibrium.Balance` — a formula matrix with element amounts; `Balance.ofTensor` checks that they
  go together.
* `Equilibrium.GibbsModel`, `Mixture.model` — a model of the Gibbs energy, and the one of a mixture.
* `Equilibrium.Problem`, `Equilibrium.Problem.optimum` — the problem, and what is to be optimised.
* `Equilibrium.Scheme` — the choice of second derivatives.
-/

namespace GibbsNewton

namespace Equilibrium

/-! ### Element balances -/

/-- A formula matrix of `n` species and `m` elements with the amounts of the elements. -/
structure Balance (α : Type) (n m : Nat) where
  /-- The formula matrix. -/
  formula : Mat α m n
  /-- The element amounts. -/
  amounts : Vec α m

/-- Why a formula matrix and element amounts do not go together. -/
inductive BalanceError
  /-- The formula matrix is no matrix. -/
  | notMatrix (shape : List Nat)
  /-- The number of element amounts is not that of the rows. -/
  | sizes (rows amounts : Nat)
  deriving DecidableEq, Repr

/-- The message about a formula matrix and element amounts that do not go together. -/
def BalanceError.message : BalanceError → String
  | notMatrix shape => "Formula matrix must be 2-D, got shape " ++ Tensor.shapeText shape
  | sizes rows amounts =>
    "Formula matrix has " ++ toString rows ++ " rows but " ++ toString amounts ++
      " element amounts were given"

/-- A balance of some size. -/
structure AnyBalance (α : Type) where
  /-- The number of species. -/
  n : Nat
  /-- The number of elements. -/
  m : Nat
  /-- The balance. -/
  balance : Balance α n m

/-- The balance of an array and a list of element amounts, if they go together. -/
def Balance.ofTensor {α : Type} [Scalar α] (formula : Tensor α) (amounts : List α) :
    Except BalanceError (AnyBalance α) :=
  match formula.shape with
  | [m, n] =>
    match Mat.ofRows? m n formula.rows, Vec.ofList? m amounts with
    | some W, some b => .ok ⟨n, m, W, b⟩
    | _, _ => .error (.sizes m amounts.length)
  | shape => .error (.notMatrix shape)

/-! ### Models -/

/-- A model of the Gibbs energy, in units of `R T`, of `n` species.

The energy is differentiated as an expression in the amounts, so whether it can be evaluated is known
from the model alone and does not depend on the amounts. -/
structure GibbsModel (α : Type) (n : Nat) where
  /-- The energy. -/
  energy : Vec α n → α
  /-- Its derivatives. -/
  gradient : Vec α n → Vec α n
  /-- Its second derivatives. -/
  hessian : Vec α n → Mat α n n
  /-- The second derivatives that the model offers in their place. -/
  approximation : Vec α n → Mat α n n
  /-- Whether the energy can be evaluated. -/
  isEvaluable : Bool

end Equilibrium

/-- A mixture as a model of its Gibbs energy; without the floor its second derivatives are simpler. -/
def Mixture.model {α : Type} [Scalar α] {n : Nat} (x : Mixture α n) : Equilibrium.GibbsModel α n where
  energy := x.energy
  gradient := x.gradient
  hessian := x.hessian
  approximation := x.curvature
  isEvaluable := x.isEvaluable

namespace Equilibrium

/-! ### Second derivatives -/

/-- The choice of second derivatives. -/
inductive Scheme
  /-- The true ones, in full. -/
  | exact
  /-- The diagonal of the true ones. -/
  | exactDiagonal
  /-- Those that the model offers, in full. -/
  | approximation
  /-- The diagonal of those that the model offers. -/
  | approximationDiagonal
  deriving DecidableEq, Repr, Inhabited

namespace Scheme

/-- Every choice, in the order in which they are offered. -/
def all : List Scheme := [exact, exactDiagonal, approximation, approximationDiagonal]

/-- The name of a choice. -/
def name : Scheme → String
  | exact => "exact"
  | exactDiagonal => "exact-diagonal"
  | approximation => "approximation"
  | approximationDiagonal => "approximation-diagonal"

/-- The choice of a name. -/
def ofName? (s : String) : Option Scheme := all.find? (·.name == s)

/-- The second derivatives of a model that a choice stands for. -/
def hessian {α : Type} {n : Nat} (s : Scheme) (g : GibbsModel α n) (a : Vec α n) : Hessian α n :=
  match s with
  | exact => .dense (g.hessian a)
  | exactDiagonal => .diagonal (g.hessian a).diag
  | approximation => .dense (g.approximation a)
  | approximationDiagonal => .diagonal (g.approximation a).diag

end Scheme

/-! ### Problems -/

/-- An equilibrium problem of `n` species and `m` elements. -/
structure Problem (α : Type) (n m : Nat) extends Balance α n m where
  /-- The model of the Gibbs energy. -/
  model : GibbsModel α n

/-- The optimisation problem that an equilibrium problem stands for. -/
def Problem.optimum {α : Type} [Scalar α] {n m : Nat} (p : Problem α n m) (s : Scheme) :
    Optimum.Problem α n m where
  objective := p.model.energy
  gradient := p.model.gradient
  hessian a _ := s.hessian p.model a
  constraint a := (p.formula.mulVec a).sub p.amounts
  jacobian _ := p.formula

end Equilibrium

end GibbsNewton
