import GibbsNewton.Linear.Vec

/-!
# Orthogonal factors of a matrix

A matrix is written as an orthogonal matrix times an upper triangular one by reflecting its first
column onto the first axis and going on with the block below and to the right.  All columns of the
orthogonal factor are kept: the first ones span the columns of the matrix, the others are
orthogonal to them.

A column that already lies on the first axis is not reflected; otherwise the reflected entry gets
the sign opposite to the one it replaces, so that no cancellation occurs.

## Main definitions

* `Reflector`, `Reflector.ofColumn` — the reflection that sends a column to the first axis.
* `Mat.Factoring` — a routine that answers an orthogonal and a triangular factor.
* `Mat.qr`, `Mat.reflecting` — the factors by reflections, and the routine that answers them.
* `Mat.solveUpper`, `Mat.solveLower` — back and forward substitution.
-/

namespace GibbsNewton

variable {α : Type} [Scalar α] {m n k : Nat}

/-! ### Reflections -/

/-- The reflection `I - scale · v vᵀ` with `v = (1, tail)`, which sends some column to
`(head, 0, …, 0)`. -/
structure Reflector (α : Type) (n : Nat) where
  /-- The factor of `v vᵀ`; zero for the identity. -/
  scale : α
  /-- The entries of `v` after the leading one. -/
  tail : Vec α n
  /-- What the first entry of the column becomes. -/
  head : α

namespace Reflector

/-- The reflection that sends a column to the first axis. -/
def ofColumn (a : Vec α (n + 1)) : Reflector α n :=
  let top := a.head
  let below := a.tail
  let square := below.dot below
  if square == 0 then
    { scale := 0, tail := below, head := top }
  else
    let norm := Scalar.sqrt (top * top + square)
    let head := if Scalar.lt top 0 then norm else -norm
    { scale := (head - top) / head, tail := below.map (· / (top - head)), head := head }

/-- The vector that the reflection is orthogonal to. -/
def normal (h : Reflector α n) : Vec α (n + 1) := Vec.cons 1 h.tail

/-- Reflects every column of a matrix. -/
def apply (h : Reflector α n) (A : Mat α (n + 1) k) : Mat α (n + 1) k :=
  let v := h.normal
  let w := A.transposeMulVec v
  Mat.of fun i j => A i j - h.scale * v i * w j

end Reflector

/-! ### Factors -/

/-- The block matrix with `a` in its corner, `row` beside it, zeros below it, and `A` in the rest. -/
def Mat.bordered (a : α) (row : Vec α k) (A : Mat α n k) : Mat α (n + 1) (k + 1) :=
  Vec.cons (Vec.cons a row) (A.map (Vec.cons 0))

/-- The block below and to the right of the first entry. -/
def Mat.block (A : Mat α (n + 1) (k + 1)) : Mat α n k := A.tail.map Vec.tail

/-- A routine that answers an orthogonal and an upper triangular factor of a matrix. -/
abbrev Mat.Factoring (α : Type) := (n m : Nat) → Mat α n m → Mat α n n × Mat α n m

/-- The orthogonal and the upper triangular factor of a matrix, by reflections. -/
def Mat.qr : {n m : Nat} → Mat α n m → Mat α n n × Mat α n m
  | 0, _, A => (identity 0, A)
  | n + 1, 0, A => (identity (n + 1), A)
  | n + 1, _ + 1, A =>
    let h := Reflector.ofColumn (A.map Vec.head)
    let B := h.apply A
    let (Q, R) := qr B.block
    (h.apply (bordered 1 (Vec.const n 0) Q), bordered h.head B.head.tail R)

/-- Factoring by reflections. -/
def Mat.reflecting : Mat.Factoring α := fun _ _ => qr

/-! ### Triangular systems -/

/-- The solution of `L x = b` for a lower triangular `L`, from the first row down. -/
def Mat.solveLower : {n : Nat} → Mat α n n → Vec α n → Vec α n
  | 0, _, b => b
  | _ + 1, L, b =>
    let first := b.head / L.head.head
    Vec.cons first (solveLower L.block (Vec.of fun i => b i.succ - (L i.succ).head * first))

/-- The solution of `R x = b` for an upper triangular `R`, from the last row up. -/
def Mat.solveUpper : {n : Nat} → Mat α n n → Vec α n → Vec α n
  | 0, _, b => b
  | _ + 1, R, b =>
    let below := solveUpper R.block b.tail
    Vec.cons ((b.head - R.head.tail.dot below) / R.head.head) below

end GibbsNewton
