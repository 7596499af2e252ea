import GibbsNewton.Optimum.Problem

/-!
# Problems given by coefficients

A family of problems with linear, quadratic, entropic and quartic terms in the objective and linear
and quadratic ones in the constraints:

    f(x) = constant + c·x + x·(Q x)/2 + ∑ eᵢ xᵢ ln xᵢ + ∑ qᵢ xᵢ⁴
    h(x) = A x + B (x∘x) - b

An entropic term with coefficient zero is left out, so that it asks for no logarithm.  The second
derivatives are `Q` as given, also when it is not symmetric, and the diagonals of the other terms.

## Main definitions

* `Optimum.Coefficients`, `Optimum.Coefficients.problem` — the coefficients and their problem.
-/

namespace GibbsNewton.Optimum

/-- The coefficients of a problem. -/
structure Coefficients (α : Type) (n m : Nat) where
  /-- The constant of the objective. -/
  constant : α
  /-- Its linear coefficients. -/
  linear : Vec α n
  /-- Its quadratic coefficients. -/
  quadratic : Mat α n n
  /-- Its entropic coefficients. -/
  entropic : Vec α n
  /-- Its quartic coefficients. -/
  quartic : Vec α n
  /-- The linear coefficients of the constraints. -/
  constraint : Mat α m n
  /-- The quadratic coefficients of the constraints. -/
  squares : Mat α m n
  /-- The right-hand sides of the constraints. -/
  bound : Vec α m
  /-- Whether second derivatives are given by their diagonal alone. -/
  diagonalOnly : Bool

variable {α : Type} [Scalar α] {n m : Nat}

namespace Coefficients

/-- The objective. -/
def objective (k : Coefficients α n m) (x : Vec α n) : α :=
  let entropy (i : Fin n) : α :=
    if k.entropic i == 0 then 0 else k.entropic i * x i * Scalar.log (x i)
  let fourth (i : Fin n) : α := k.quartic i * (x i * x i * x i * x i)
  k.constant + k.linear.dot x + x.dot (k.quadratic.mulVec x) / 2 + Vec.sum entropy +
    Vec.sum fourth

/-- The gradient. -/
def gradient (k : Coefficients α n m) (x : Vec α n) : Vec α n :=
  let right := k.quadratic.mulVec x
  let left := k.quadratic.transposeMulVec x
  Vec.of fun i =>
    let smooth := k.linear i + (right i + left i) / 2
    let smooth := if k.entropic i == 0 then smooth
      else smooth + k.entropic i * (Scalar.log (x i) + 1)
    smooth + 4 * k.quartic i * (x i * x i * x i)

/-- The second derivatives. -/
def hessian (k : Coefficients α n m) (x : Vec α n) : Hessian α n :=
  let extra : Vec α n := Vec.of fun i =>
    (if k.entropic i == 0 then 0 else k.entropic i / x i) + 12 * k.quartic i * (x i * x i)
  let full := k.quadratic.add (Mat.diagonal extra)
  if k.diagonalOnly then .diagonal full.diag else .dense full

/-- The problem of the coefficients. -/
def problem (k : Coefficients α n m) : Problem α n m where
  objective := k.objective
  gradient := k.gradient
  hessian x _ := k.hessian x
  constraint x :=
    ((k.constraint.mulVec x).add (k.squares.mulVec (x.map fun a => a * a))).sub k.bound
  jacobian x := Mat.of fun i j => k.constraint i j + 2 * k.squares i j * x j

end Coefficients

end GibbsNewton.Optimum
