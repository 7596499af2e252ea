import GibbsNewton.Linear.Vec
import GibbsNewton.Proofs.Exact
import Mathlib.Data.Matrix.Mul
import Mathlib.LinearAlgebra.Matrix.Notation

/-!
# Real vectors and matrices in exact arithmetic

A vector or matrix of reals, read entry by entry as exact values, and what the operations of
`Linear.Vec` do to it: on real data each of them is the operation of the same name on functions and
matrices over `ℝ`.  A vector whose entries are all finite is of this form.

## Main definitions

* `Vec.ofReal`, `Mat.ofReal` — real data read as exact values.
* `Mat.toMatrix`, `Mat.ofMatrix` — the entries of a stored matrix, and a matrix stored.

## Main results

* `Vec.isFinite_iff`, `Mat.isFinite_iff` — finite data are real data.
* `Mat.mulVec_ofReal`, `Mat.mul_ofReal`, … — the products on real data.
* `Vec.isFinite_sum`, `Vec.isFinite_normInf` — a reduction is finite exactly when every entry is.
-/

namespace GibbsNewton

open Matrix

variable {m n k : ℕ}

/-! ### Vectors -/

namespace Vec

/-- A real vector read as exact values. -/
def ofReal (v : Fin n → ℝ) : Vec Exact n := of fun i => (v i : Exact)

@[simp] theorem ofReal_apply (v : Fin n → ℝ) (i : Fin n) : ofReal v i = (v i : Exact) := by
  simp [ofReal]

@[simp] theorem of_coe (v : Fin n → ℝ) : of (fun i => (v i : Exact)) = ofReal v := rfl

theorem isFinite_iff_forall {v : Vec Exact n} :
    v.isFinite = true ↔ ∀ i, Scalar.isFinite (v i) = true :=
  all_iff

@[simp] theorem isFinite_ofReal (v : Fin n → ℝ) : (ofReal v).isFinite = true := by
  simp [isFinite_iff_forall]

/-- The finite vectors are the real ones. -/
theorem isFinite_iff {v : Vec Exact n} : v.isFinite = true ↔ ∃ w, v = ofReal w := by
  constructor
  · intro h
    rw [isFinite_iff_forall] at h
    refine ⟨fun i => (v i).toReal, ?_⟩
    ext i
    rw [ofReal_apply, Exact.coe_toReal (h i)]
  · rintro ⟨w, rfl⟩
    exact isFinite_ofReal w

/-- Adding up reals from a real start gives the real sum. -/
private theorem foldl_add_coe (f : Fin n → ℝ) (a : ℝ) :
    Fin.foldl n (fun s i => s + (f i : Exact)) (a : Exact) = ((a + ∑ i, f i : ℝ) : Exact) := by
  induction n with
  | zero => simp
  | succ n ih =>
    rw [Fin.foldl_succ_last, ih, Exact.add_coe, Fin.sum_univ_castSucc, add_assoc]

@[simp] theorem sum_coe (f : Fin n → ℝ) :
    sum (fun i => (f i : Exact)) = ((∑ i, f i : ℝ) : Exact) := by
  rw [sum, Exact.zero_eq, foldl_add_coe, zero_add]

@[simp] theorem dot_ofReal (v w : Fin n → ℝ) :
    (ofReal v).dot (ofReal w) = ((v ⬝ᵥ w : ℝ) : Exact) := by
  simp [dot, dotProduct]

@[simp] theorem add_ofReal (v w : Fin n → ℝ) : (ofReal v).add (ofReal w) = ofReal (v + w) := by
  apply ext
  intro i
  simp

@[simp] theorem sub_ofReal (v w : Fin n → ℝ) : (ofReal v).sub (ofReal w) = ofReal (v - w) := by
  apply ext
  intro i
  simp

@[simp] theorem move_ofReal (v d : Fin n → ℝ) (t : ℝ) :
    (ofReal v).move (t : Exact) (ofReal d) = ofReal (v + t • d) := by
  apply ext
  intro i
  simp

@[simp] theorem const_coe (a : ℝ) : const n (a : Exact) = ofReal fun _ => a := by
  apply ext
  intro i
  simp

@[simp] theorem cons_ofReal (a : ℝ) (v : Fin n → ℝ) :
    cons (a : Exact) (ofReal v) = ofReal (vecCons a v) := by
  ext i
  cases i using Fin.cases <;> simp

@[simp] theorem tail_ofReal (v : Fin (n + 1) → ℝ) : (ofReal v).tail = ofReal (vecTail v) := by
  apply ext
  intro i
  simp [vecTail]

/-- A sum is finite exactly when every term is. -/
theorem isFinite_sum {f : Fin n → Exact} :
    Scalar.isFinite (sum f) = true ↔ ∀ i, Scalar.isFinite (f i) = true := by
  have h : ∀ n (f : Fin n → Exact) (a : Exact),
      Scalar.isFinite (Fin.foldl n (fun s i => s + f i) a) = true ↔
        Scalar.isFinite a = true ∧ ∀ i, Scalar.isFinite (f i) = true := by
    intro n
    induction n with
    | zero => simp
    | succ n ih =>
      intro f a
      rw [Fin.foldl_succ_last, Exact.isFinite_add, Bool.and_eq_true, ih, Fin.forall_fin_succ',
        and_assoc]
  rw [sum, h]
  simp

/-- A largest magnitude is finite exactly when every entry is. -/
@[simp] theorem isFinite_normInf (v : Vec Exact n) : Scalar.isFinite v.normInf = v.isFinite := by
  have h : ∀ n (f : Fin n → Exact) (a : Exact),
      Scalar.isFinite (Fin.foldl n (fun s i => Scalar.maximum s (Scalar.abs (f i))) a) = true ↔
        Scalar.isFinite a = true ∧ ∀ i, Scalar.isFinite (f i) = true := by
    intro n
    induction n with
    | zero => simp
    | succ n ih =>
      intro f a
      rw [Fin.foldl_succ_last, Exact.isFinite_maximum, Exact.isFinite_abs, Bool.and_eq_true, ih,
        Fin.forall_fin_succ', and_assoc]
  rw [Bool.eq_iff_iff, normInf, h, isFinite_iff_forall]
  simp

end Vec

/-! ### Matrices -/

namespace Mat

/-- The entries of a stored matrix. -/
def toMatrix {α : Type} (A : Mat α m n) : Matrix (Fin m) (Fin n) α := Matrix.of fun i j => A i j

@[simp] theorem toMatrix_apply {α : Type} (A : Mat α m n) (i : Fin m) (j : Fin n) :
    A.toMatrix i j = A i j := rfl

/-- A real matrix read as exact values. -/
def ofReal (A : Matrix (Fin m) (Fin n) ℝ) : Mat Exact m n := of fun i j => (A i j : Exact)

@[simp] theorem ofReal_apply (A : Matrix (Fin m) (Fin n) ℝ) (i : Fin m) :
    ofReal A i = Vec.ofReal (A i) := by
  apply Vec.ext
  intro j
  simp [ofReal]

/-- A real matrix, stored. -/
def ofMatrix (B : Matrix (Fin m) (Fin n) ℝ) : Mat ℝ m n := of fun i j => B i j

@[simp] theorem toMatrix_ofMatrix (B : Matrix (Fin m) (Fin n) ℝ) :
    (ofMatrix B).toMatrix = B := by
  ext i j
  simp [ofMatrix]

/-- Matrices are equal when their entries are. -/
theorem ext_apply {α : Type} {A B : Mat α m n} (h : ∀ i j, A i j = B i j) : A = B :=
  Vec.ext fun i => Vec.ext fun j => h i j

theorem isFinite_iff_forall {A : Mat Exact m n} :
    A.isFinite = true ↔ ∀ i j, Scalar.isFinite (A i j) = true := by
  simp only [isFinite, Vec.all_iff, Vec.isFinite_iff_forall]

@[simp] theorem isFinite_ofReal (A : Matrix (Fin m) (Fin n) ℝ) : (ofReal A).isFinite = true := by
  simp [isFinite_iff_forall]

/-- The finite matrices are the real ones. -/
theorem isFinite_iff {A : Mat Exact m n} : A.isFinite = true ↔ ∃ B, A = ofReal B := by
  constructor
  · intro h
    rw [isFinite_iff_forall] at h
    refine ⟨Matrix.of fun i j => (A i j).toReal, ext_apply fun i j => ?_⟩
    rw [ofReal_apply, Vec.ofReal_apply, Matrix.of_apply, Exact.coe_toReal (h i j)]
  · rintro ⟨B, rfl⟩
    exact isFinite_ofReal B

@[simp] theorem transpose_ofReal (A : Matrix (Fin m) (Fin n) ℝ) :
    (ofReal A).transpose = ofReal Aᵀ :=
  ext_apply fun i j => by simp

@[simp] theorem diag_ofReal (A : Matrix (Fin n) (Fin n) ℝ) :
    (ofReal A).diag = Vec.ofReal A.diag := by
  apply Vec.ext
  intro i
  simp

@[simp] theorem diagonal_ofReal (d : Fin n → ℝ) :
    diagonal (Vec.ofReal d) = ofReal (Matrix.diagonal d) :=
  ext_apply fun i j => by by_cases h : i = j <;> simp [Matrix.diagonal, h]

@[simp] theorem identity_eq : (identity n : Mat Exact n n) = ofReal 1 := by
  simp [identity, ← Matrix.diagonal_one]

@[simp] theorem add_ofReal (A B : Matrix (Fin m) (Fin n) ℝ) :
    (ofReal A).add (ofReal B) = ofReal (A + B) :=
  ext_apply fun i j => by simp

@[simp] theorem mulVec_ofReal (A : Matrix (Fin m) (Fin n) ℝ) (v : Fin n → ℝ) :
    (ofReal A).mulVec (Vec.ofReal v) = Vec.ofReal (A *ᵥ v) := by
  apply Vec.ext
  intro i
  simp [mulVec, Matrix.mulVec]

@[simp] theorem transposeMulVec_ofReal (A : Matrix (Fin m) (Fin n) ℝ) (v : Fin m → ℝ) :
    (ofReal A).transposeMulVec (Vec.ofReal v) = Vec.ofReal (Aᵀ *ᵥ v) := by
  apply Vec.ext
  intro i
  simp [transposeMulVec, Matrix.mulVec, dotProduct]

@[simp] theorem mul_ofReal (A : Matrix (Fin m) (Fin k) ℝ) (B : Matrix (Fin k) (Fin n) ℝ) :
    (ofReal A).mul (ofReal B) = ofReal (A * B) :=
  ext_apply fun i j => by simp [mul, Matrix.mul_apply]

end Mat

end GibbsNewton
