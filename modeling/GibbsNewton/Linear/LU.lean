import GibbsNewton.Linear.Vec

/-!
# Triangular factors of a square matrix

Gaussian elimination with row exchanges.  One step of the elimination chooses the row whose first
entry is largest in magnitude, moves it to the top, and subtracts multiples of it from the rows
below; what remains is a matrix with one row and one column less.  A factorisation is the record
of these steps, so it is an inductive type, and solving with it is a recursion on that record:
down the steps for the forward substitution and back up for the backward one.

A column with no entry to divide by is left as it is, which puts a zero among the pivots.
`LU.usable` is the test that a caller makes before solving: every stored number is finite and no
pivot is zero.

## Main definitions

* `LU` — the record of an elimination.
* `LU.factor` — eliminating a matrix.
* `LU.usable` — whether the factors can be solved with.
* `LU.solve`, `LU.solveColumns` — solving for one right-hand side, or for every column of one.
-/

namespace GibbsNewton

/-- The record of an elimination of an `n × n` matrix. -/
inductive LU (α : Type) : Nat → Type
  /-- Nothing is left to eliminate. -/
  | done : LU α 0
  /-- Row `row` was moved to the top; `pivot` and `upper` are its entries, `lower` the multiples of
  it taken off the rows below, and `rest` the elimination of what remained. -/
  | step {n : Nat} (row : Fin (n + 1)) (pivot : α) (upper lower : Vec α n) (rest : LU α n) :
      LU α (n + 1)

variable {α : Type} [Scalar α] {n k : Nat}

namespace LU

/-- Eliminates a matrix, one column at a time. -/
def factor : {n : Nat} → Mat α n n → LU α n
  | 0, _ => .done
  | _ + 1, A =>
    let p := A.pivotRow
    let B := A.exchange p
    let pivot := B.head.head
    let upper := B.head.tail
    let lower := B.tail.map fun row => if pivot == 0 then row.head else row.head / pivot
    .step p pivot upper lower (factor (Mat.of fun i j => B i.succ j.succ - lower i * upper j))

/-- Whether every stored number is finite and no pivot is zero. -/
def usable : {n : Nat} → LU α n → Bool
  | 0, .done => true
  | _ + 1, .step _ pivot upper lower rest =>
    Scalar.isFinite pivot && !(pivot == 0) && upper.isFinite && lower.isFinite && rest.usable

/-- The column whose product with the eliminated matrix is `b`. -/
def solve : {n : Nat} → LU α n → Vec α n → Vec α n
  | 0, .done, b => b
  | _ + 1, .step p pivot upper lower rest, b =>
    let top := (b.exchange p).head
    let below := solve rest (Vec.of fun i => b.exchange p i.succ - lower i * top)
    Vec.cons ((top - upper.dot below) / pivot) below

/-- Solves for every column of a right-hand side. -/
def solveColumns (F : LU α n) (B : Mat α n k) : Mat α n k :=
  Mat.transpose (B.transpose.map F.solve)

end LU

end GibbsNewton
