import GibbsNewton.Linear.Vec

/-!
# The linear system of a Newton step

At a point `(x, y, z)` of an interior-point run the Newton direction `(dx, dy, dz)` solves

    H dx - Aᵀ dy - dz       = rx
    A dx                    = ry
    z ∘ dx        + x ∘ dz  = rz

with the second derivatives `H` of the objective and the Jacobian `A` of the constraints.

## Main definitions

* `Hessian` — second derivatives, as a full matrix or as a diagonal alone.
* `Kkt.System`, `Kkt.Rhs`, `Kkt.Direction` — left-hand side, right-hand side and unknowns.
* `Kkt.System.curvature`, `Kkt.System.condense` — what is left when `dz` is eliminated.
-/

namespace GibbsNewton

/-- Second derivatives of an objective of `n` variables. -/
inductive Hessian (α : Type) (n : Nat)
  /-- Only the diagonal, every other entry being zero. -/
  | diagonal (entries : Vec α n)
  /-- The full matrix, symmetric or not. -/
  | dense (entries : Mat α n n)

namespace Hessian

variable {α : Type} [Scalar α] {n : Nat}

/-- The full matrix. -/
def toMat : Hessian α n → Mat α n n
  | diagonal d => Mat.diagonal d
  | dense M => M

/-- The diagonal. -/
def toDiagonal : Hessian α n → Vec α n
  | diagonal d => d
  | dense M => M.diag

end Hessian

namespace Kkt

/-- The left-hand side: second derivatives, Jacobian, and the two positive blocks. -/
structure System (α : Type) (n m : Nat) where
  /-- Second derivatives of the objective. -/
  hessian : Hessian α n
  /-- Jacobian of the constraints. -/
  jacobian : Mat α m n
  /-- The variables. -/
  x : Vec α n
  /-- The multipliers of their bounds. -/
  z : Vec α n

/-- A right-hand side. -/
structure Rhs (α : Type) (n m : Nat) where
  /-- The block of the stationarity equations. -/
  rx : Vec α n
  /-- The block of the constraints. -/
  ry : Vec α m
  /-- The block of the centrality equations. -/
  rz : Vec α n

/-- A direction in which to move `(x, y, z)`. -/
structure Direction (α : Type) (n m : Nat) where
  /-- The change of the variables. -/
  dx : Vec α n
  /-- The change of the constraint multipliers. -/
  dy : Vec α m
  /-- The change of the bound multipliers. -/
  dz : Vec α n

variable {α : Type} [Scalar α] {n m : Nat}

/-- Whether every entry is finite. -/
def Direction.isFinite (d : Direction α n m) : Bool :=
  d.dx.isFinite && d.dy.isFinite && d.dz.isFinite

/-- The second derivatives with the bounds taken in: `H + diag (z / x)`. -/
def System.curvature (s : System α n m) : Mat α n n :=
  s.hessian.toMat.add (Mat.diagonal (Vec.of fun i => s.z i / s.x i))

/-- The stationarity block after `dz` has been eliminated: `rx + rz / x`. -/
def System.condense (s : System α n m) (r : Rhs α n m) : Vec α n :=
  Vec.of fun i => r.rx i + r.rz i / s.x i

/-- The bound multipliers' change that goes with `dx`: `(rz - z ∘ dx) / x`. -/
def System.boundChange (s : System α n m) (r : Rhs α n m) (dx : Vec α n) : Vec α n :=
  Vec.of fun i => (r.rz i - s.z i * dx i) / s.x i

end Kkt

end GibbsNewton
