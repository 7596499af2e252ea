import GibbsNewton.Kkt.System
import GibbsNewton.Linear.LU
import GibbsNewton.Linear.QR

/-!
# Factorisations of the Newton system

Three ways to solve the system of `Kkt.System`, all by elimination.

* The *range-space* method eliminates `dz` and `dx` and factors the Schur complement
  `A G⁻¹ Aᵀ` of the curvature `G = H + diag (z / x)`; with a diagonal `H` the inverse of `G` is
  taken entry by entry.
* The *full-space* method factors the whole matrix of `n + m + n` rows.
* The *null-space* method writes `Aᵀ = Q R`, splits `dx` into a part in the row space of `A`, fixed
  by the constraints, and a part orthogonal to it, and factors the curvature reduced to the latter.
  It needs at most as many constraints as variables.  Any routine for the orthogonal factors will do;
  a system is factored with the one by reflections.

A factorisation fails, with `none`, when a number that must be finite is not or when one of the
divisors it leaves behind is zero.

## Main definitions

* `Kkt.Method` — the three methods and their names.
* `Kkt.Factorization` — what each method stores.
* `Kkt.System.factor` — factoring; `Kkt.Factorization.solve` — solving.
-/

namespace GibbsNewton.Kkt

/-! ### The methods -/

/-- A way of factoring the Newton system. -/
inductive Method
  /-- Schur complement of the curvature. -/
  | rangespace
  /-- The whole matrix at once. -/
  | fullspace
  /-- Projection onto the null space of the constraints. -/
  | nullspace
  deriving DecidableEq, Repr, Inhabited

namespace Method

/-- Every method, in the order in which they are offered. -/
def all : List Method := [rangespace, fullspace, nullspace]

/-- The name by which a method is chosen. -/
def name : Method → String
  | rangespace => "rangespace"
  | fullspace => "fullspace"
  | nullspace => "nullspace"

/-- The method of a name. -/
def ofName? (s : String) : Option Method := all.find? (·.name == s)

theorem ofName?_name (method : Method) : ofName? method.name = some method := by
  cases method <;> decide

theorem ofName?_eq_some_iff {s : String} {method : Method} :
    ofName? s = some method ↔ method.name = s := by
  constructor
  · intro h
    simpa using List.find?_some h
  · rintro rfl
    exact ofName?_name method

end Method

/-! ### What is stored -/

/-- A factorisation of the Newton system with `n` variables and `m` constraints. -/
inductive Factorization (α : Type) (n m : Nat)
  /-- The inverse of a diagonal curvature, and the factored Schur complement. -/
  | rangespaceDiagonal (inverse : Vec α n) (schur : LU α m)
  /-- The factored curvature `G`, the columns `G⁻¹ Aᵀ`, and the factored Schur complement. -/
  | rangespaceDense (curvature : LU α n) (columns : Mat α n m) (schur : LU α m)
  /-- The factored matrix of the whole system. -/
  | fullspace (whole : LU α (n + m + n))
  /-- The curvature, bases of the row space and of the null space of the constraints, the
  triangular factor of the constraints, and the factored reduced curvature. -/
  | nullspace (curvature : Mat α n n) (range : Mat α n m) (kernel : Mat α n (n - m))
      (triangle : Mat α m m) (reduced : LU α (n - m))

variable {α : Type} [Scalar α] {n m : Nat}

/-- Stacks the three blocks of a column of the whole system. -/
def stack (u : Vec α n) (v : Vec α m) (w : Vec α n) : Vec α (n + m + n) :=
  Vec.of (Fin.addCases (Fin.addCases u v) w)

/-- The blocks of a column of the whole system. -/
def unstack (v : Vec α (n + m + n)) : Direction α n m where
  dx := Vec.of fun i => v (Fin.castAdd n (Fin.castAdd m i))
  dy := Vec.of fun i => v (Fin.castAdd n (Fin.natAdd n i))
  dz := Vec.of fun i => v (Fin.natAdd (n + m) i)

/-- The column that follows the first `m` of `n` columns by `j` more. -/
def beyond (h : m ≤ n) (j : Fin (n - m)) : Fin n := ⟨m + j, by omega⟩

namespace System

/-- The matrix of the whole system: its column `j` is the image of the `j`-th unit direction. -/
def whole (s : System α n m) : Mat α (n + m + n) (n + m + n) :=
  let H := s.hessian.toMat
  let A := s.jacobian
  Vec.of <| Fin.addCases
    (Fin.addCases
      (fun i => stack (H i) (Vec.of fun j => -A j i) (Vec.of fun j => if i = j then -1 else 0))
      (fun i => stack (A i) (Vec.const m 0) (Vec.const n 0)))
    (fun i => stack (Vec.of fun j => if i = j then s.z i else 0) (Vec.const m 0)
      (Vec.of fun j => if i = j then s.x i else 0))

/-- Factors by the range-space method with a diagonal curvature. -/
def factorRangespaceDiagonal (s : System α n m) (d : Vec α n) : Option (Factorization α n m) :=
  let inverse : Vec α n := Vec.of fun i => 1 / (d i + s.z i / s.x i)
  let scaled : Mat α m n := Mat.of fun i j => s.jacobian i j * inverse j
  let schur := LU.factor (scaled.mul s.jacobian.transpose)
  if inverse.isFinite && schur.usable then some (.rangespaceDiagonal inverse schur) else none

/-- Factors by the range-space method with a full curvature. -/
def factorRangespaceDense (s : System α n m) : Option (Factorization α n m) :=
  let curvature := LU.factor s.curvature
  let columns := curvature.solveColumns s.jacobian.transpose
  let schur := LU.factor (s.jacobian.mul columns)
  if curvature.usable && schur.usable then some (.rangespaceDense curvature columns schur)
  else none

/-- Factors the whole matrix. -/
def factorFullspace (s : System α n m) : Option (Factorization α n m) :=
  let whole := LU.factor s.whole
  if whole.usable then some (.fullspace whole) else none

/-- Factors by the null-space method, with the orthogonal factors that a routine answers. -/
def factorNullspace (qr : Mat.Factoring α) (s : System α n m) : Option (Factorization α n m) :=
  if h : m ≤ n then
    let G := s.curvature
    let (Q, R) := qr n m s.jacobian.transpose
    let range : Mat α n m := Mat.of fun i j => Q i (Fin.castLE h j)
    let kernel : Mat α n (n - m) := Mat.of fun i j => Q i (beyond h j)
    let triangle : Mat α m m := Mat.of fun i j => R (Fin.castLE h i) j
    let reduced := LU.factor (kernel.transpose.mul (G.mul kernel))
    if Q.isFinite && triangle.diag.all (fun r => !(r == 0)) && reduced.usable then
      some (.nullspace G range kernel triangle reduced)
    else none
  else none

/-- Factors the system by the given method. -/
def factor (s : System α n m) : Method → Option (Factorization α n m)
  | .rangespace =>
    match s.hessian with
    | .diagonal d => s.factorRangespaceDiagonal d
    | .dense _ => s.factorRangespaceDense
  | .fullspace => s.factorFullspace
  | .nullspace => s.factorNullspace Mat.reflecting

end System

/-! ### Solving -/

/-- The direction that a factorisation of `s` gives for a right-hand side. -/
def Factorization.solve (F : Factorization α n m) (s : System α n m) (r : Rhs α n m) :
    Direction α n m :=
  let A := s.jacobian
  match F with
  | .rangespaceDiagonal inverse schur =>
    let rhs := s.condense r
    let dy := schur.solve (r.ry.sub (A.mulVec (Vec.of fun i => inverse i * rhs i)))
    let t := A.transposeMulVec dy
    let dx : Vec α n := Vec.of fun i => inverse i * (rhs i + t i)
    { dx, dy, dz := s.boundChange r dx }
  | .rangespaceDense curvature columns schur =>
    let u := curvature.solve (s.condense r)
    let dy := schur.solve (r.ry.sub (A.mulVec u))
    let dx := u.add (columns.mulVec dy)
    { dx, dy, dz := s.boundChange r dx }
  | .fullspace whole => unstack (whole.solve (stack r.rx r.ry r.rz))
  | .nullspace G range kernel triangle reduced =>
    let rhs := s.condense r
    let fixed := range.mulVec (triangle.transpose.solveLower r.ry)
    let free := reduced.solve (kernel.transposeMulVec (rhs.sub (G.mulVec fixed)))
    let dx := fixed.add (kernel.mulVec free)
    let dy := triangle.solveUpper (range.transposeMulVec ((G.mulVec dx).sub rhs))
    { dx, dy, dz := s.boundChange r dx }

end GibbsNewton.Kkt
