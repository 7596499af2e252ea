import GibbsNewton.Linear.Vec

/-!
# Least squares

Given rows `a₁, …, aₘ` and a target `r`, the coefficients `y` for which `∑ yᵢ aᵢ` is nearest to
`r`.  The first row is projected out of the target and of the other rows, which leaves a problem
with one row less; its solution and the projections give the first coefficient.  A row that is
zero after the projections so far gets the coefficient zero.

Where the rows are dependent there are other coefficients that are as good, and these need not be the
shortest ones.

## Main definitions

* `Mat.leastSquares` — the coefficients.
-/

namespace GibbsNewton

variable {α : Type} [Scalar α] {n : Nat}

/-- The multiple of `a` nearest to `v`, zero when `a` is. -/
def Vec.share (a v : Vec α n) : α :=
  let square := a.dot a
  if square == 0 then 0 else v.dot a / square

/-- Coefficients of the rows of `A` whose combination is nearest to `r`. -/
def Mat.leastSquares : {m : Nat} → Mat α m n → Vec α n → Vec α m
  | 0, _, _ => Vec.of fun i => i.elim0
  | _ + 1, A, r =>
    let a := A.head
    let shares := A.tail.map a.share
    let others := A.tail.map fun v => v.move (-a.share v) a
    let rest := leastSquares others (r.move (-a.share r) a)
    Vec.cons (a.share r - rest.dot shares) rest

end GibbsNewton
