import GibbsNewton.Kkt.Solver
import GibbsNewton.Proofs.Kkt.Factorization
import Mathlib.Algebra.Order.Star.Real
import Mathlib.LinearAlgebra.Matrix.PosDef

/-!
# Newton systems of convex objectives

At positive variables and bound multipliers the bounds add a positive diagonal to the second
derivatives.  If these are nonnegative along every direction, the curvature is positive along every
direction but zero, whatever the variables are.  It is then invertible, and so is the whole system as
soon as no combination of the constraints' gradients vanishes: nothing else can go wrong.  So every
method factors the system exactly when the rows of the Jacobian are independent.

## Main definitions

* `Hessian.Nonneg` — second derivatives that are nonnegative along every direction.
* `Hessian.PosSemidef` — a positive semidefinite matrix, or a diagonal of nonnegative entries.

## Main results

* `Hessian.Nonneg.diagonal` — the diagonal alone is nonnegative with the whole.
* `Kkt.System.isUnit_curvatureMatrix` — **the curvature is invertible.**
* `Kkt.System.isUnit_blockMatrix_iff_row` — **the system is invertible exactly when the rows of the
  Jacobian are independent.**
* `Kkt.succeeded_decompose_iff_row` — **whatever its method, a solver factors it exactly then.**
-/

namespace GibbsNewton

open Matrix

variable {n m : ℕ}

/-- Rows are independent when no combination of them vanishes. -/
theorem linearIndependent_row_iff {A : Matrix (Fin m) (Fin n) ℝ} :
    LinearIndependent ℝ A.row ↔ ∀ y, Aᵀ *ᵥ y = 0 → y = 0 :=
  mulVec_injective_iff.symm.trans (injective_iff_map_eq_zero (mulVecLin Aᵀ))

namespace Hessian

/-- The second derivative along every direction is nonnegative. -/
def Nonneg (H : Hessian ℝ n) : Prop := ∀ v : Fin n → ℝ, 0 ≤ v ⬝ᵥ (H.matrix *ᵥ v)

/-- The diagonal of nonnegative second derivatives is nonnegative, along the axes and so along every
direction. -/
theorem Nonneg.diagonal {M : Mat ℝ n n} (h : (Hessian.dense M).Nonneg) :
    (Hessian.diagonal M.diag).Nonneg := by
  intro v
  have haxis : ∀ i, 0 ≤ M i i := by
    intro i
    simpa [matrix, mulVec_single_one] using h (Pi.single i 1)
  apply Finset.sum_nonneg
  intro i _
  have hentry : ((Hessian.diagonal M.diag).matrix *ᵥ v) i = M i i * v i := by
    rw [matrix, mulVec_diagonal, Mat.diag_apply]
  rw [hentry, mul_left_comm]
  exact mul_nonneg (haxis i) (mul_self_nonneg (v i))

/-- The second derivatives are a positive semidefinite matrix, or a diagonal of nonnegative entries. -/
def PosSemidef : Hessian ℝ n → Prop
  | diagonal d => ∀ i, 0 ≤ d i
  | dense M => M.toMatrix.PosSemidef

/-- Such second derivatives are nonnegative along every direction. -/
theorem PosSemidef.nonneg {H : Hessian ℝ n} (h : H.PosSemidef) : H.Nonneg := by
  intro v
  cases H with
  | diagonal d =>
    have hdiagonal : (Matrix.diagonal ⇑d).PosSemidef := .diagonal h
    simpa [matrix] using hdiagonal.dotProduct_mulVec_nonneg v
  | dense M => simpa [matrix] using Matrix.PosSemidef.dotProduct_mulVec_nonneg h v

end Hessian

namespace Kkt.System

variable {t : System ℝ n m} (hx : ∀ i, 0 < t.x i) (hz : ∀ i, 0 < t.z i) (hH : t.hessian.Nonneg)

include hx hz hH

/-- The bounds make the curvature definite. -/
theorem eq_zero_of_curvature_nonpos {v : Fin n → ℝ}
    (hv : v ⬝ᵥ (t.curvatureMatrix *ᵥ v) ≤ 0) : v = 0 := by
  have hbounds : ∀ i, 0 ≤ v i * (t.z i / t.x i * v i) := by
    intro i
    rw [mul_left_comm]
    exact mul_nonneg (div_nonneg (hz i).le (hx i).le) (mul_self_nonneg (v i))
  have hsplit : v ⬝ᵥ (t.curvatureMatrix *ᵥ v) =
      v ⬝ᵥ (t.hessian.matrix *ᵥ v) + ∑ i, v i * (t.z i / t.x i * v i) := by
    rw [curvatureMatrix, add_mulVec, dotProduct_add]
    simp only [dotProduct, mulVec_diagonal]
  have hsum : ∑ i, v i * (t.z i / t.x i * v i) = 0 := by
    apply le_antisymm
    · linarith [hH v]
    · exact Finset.sum_nonneg fun i _ => hbounds i
  funext i
  have hi := (Finset.sum_eq_zero_iff_of_nonneg fun i _ => hbounds i).mp hsum i (Finset.mem_univ i)
  have hratio : t.z i / t.x i ≠ 0 := (div_pos (hz i) (hx i)).ne'
  simpa [hratio] using hi

/-- **The curvature is invertible.** -/
theorem isUnit_curvatureMatrix : IsUnit t.curvatureMatrix := by
  rw [isUnit_iff_forall_mulVec]
  intro v hv
  apply eq_zero_of_curvature_nonpos hx hz hH
  rw [hv, dotProduct_zero]

/-- **The system is invertible exactly when the rows of the Jacobian are independent.** -/
theorem isUnit_blockMatrix_iff_row :
    IsUnit t.blockMatrix ↔ LinearIndependent ℝ t.jacobian.toMatrix.row := by
  rw [isUnit_blockMatrix_iff fun i => (hx i).ne', linearIndependent_row_iff]
  constructor
  · intro h dy hdy
    have hzero : t.curvatureMatrix *ᵥ 0 = t.jacobian.toMatrixᵀ *ᵥ dy := by rw [hdy, mulVec_zero]
    exact (h 0 dy hzero (mulVec_zero _)).2
  · intro h dx dy hcurvature hfeasible
    -- a direction along the constraints does not feel their multipliers
    have hdx : dx = 0 := by
      apply eq_zero_of_curvature_nonpos hx hz hH
      rw [hcurvature, dotProduct_mulVec, vecMul_transpose, hfeasible, zero_dotProduct]
    rw [hdx, mulVec_zero] at hcurvature
    exact ⟨hdx, h dy hcurvature.symm⟩

end Kkt.System

/-! ### The methods -/

namespace Kkt

/-- **Whatever its method, a solver factors a convex system exactly when the rows of the Jacobian are
independent**: with any number of constraints, and with second derivatives in either form. -/
theorem succeeded_decompose_iff_row (s : System ℝ n m) (hH : s.hessian.PosSemidef)
    (hx : ∀ i, 0 < s.x i) (hz : ∀ i, 0 < s.z i) (k : Solver Exact) :
    (k.decompose s.exact).succeeded = true ↔ LinearIndependent ℝ s.jacobian.toMatrix.row := by
  have hcurvature : IsUnit s.curvatureMatrix := System.isUnit_curvatureMatrix hx hz hH.nonneg
  calc (k.decompose s.exact).succeeded = true
      ↔ (s.exact.factor k.method).isSome = true := Iff.rfl
    _ ↔ IsUnit s.blockMatrix ∧ (k.method = .rangespace → IsUnit s.curvatureMatrix) :=
      System.isSome_factor_iff (fun i => (hx i).ne') k.method
    _ ↔ IsUnit s.blockMatrix := and_iff_left fun _ => hcurvature
    _ ↔ LinearIndependent ℝ s.jacobian.toMatrix.row :=
      System.isUnit_blockMatrix_iff_row hx hz hH.nonneg

/-- Second derivatives that vanish along a direction, with some constraints. -/
def flatSystem (A : Mat ℝ m 2) : System ℝ 2 m where
  hessian := .dense (Mat.of fun _ _ => 1)
  jacobian := A
  x := Vec.of fun _ => 1
  z := Vec.of fun _ => 1

/-- Every method factors it with one constraint, and none does with the same constraint twice. -/
theorem succeeded_decompose_flatSystem :
    (∀ {m : ℕ} (A : Mat ℝ m 2), (flatSystem A).hessian.PosSemidef ∧
      (∀ i, 0 < (flatSystem A).x i) ∧ ∀ i, 0 < (flatSystem A).z i) ∧
    ∀ method, ((Solver.new method).decompose
        (flatSystem (Mat.of fun (_ : Fin 1) _ => 1)).exact).succeeded = true ∧
      ((Solver.new method).decompose
        (flatSystem (Mat.of fun (_ : Fin 2) _ => 1)).exact).succeeded = false := by
  have hconvex : ∀ {m : ℕ} (A : Mat ℝ m 2), (flatSystem A).hessian.PosSemidef := by
    intro m A
    have hones : (Mat.of fun (_ _ : Fin 2) => (1 : ℝ)).toMatrix =
        vecMulVec (fun _ => 1) (star fun _ => 1) := by
      ext i j
      simp [vecMulVec]
    rw [flatSystem, Hessian.PosSemidef, hones]
    exact posSemidef_vecMulVec_self_star _
  have hx : ∀ {m : ℕ} (A : Mat ℝ m 2) i, 0 < (flatSystem A).x i := by simp [flatSystem]
  have hz : ∀ {m : ℕ} (A : Mat ℝ m 2) i, 0 < (flatSystem A).z i := by simp [flatSystem]
  refine ⟨fun A => ⟨hconvex A, hx A, hz A⟩, fun method => ⟨?_, ?_⟩⟩
  · rw [succeeded_decompose_iff_row _ (hconvex _) (hx _) (hz _), linearIndependent_row_iff]
    intro y hy
    have hfirst := congrFun hy 0
    ext i
    fin_cases i
    simpa [flatSystem, mulVec, dotProduct] using hfirst
  · rw [Bool.eq_false_iff, ne_eq, succeeded_decompose_iff_row _ (hconvex _) (hx _) (hz _),
      linearIndependent_row_iff]
    intro hindependent
    -- the difference of the two rows vanishes
    have hzero : (![1, -1] : Fin 2 → ℝ) = 0 := by
      apply hindependent
      ext i
      simp [flatSystem, mulVec, dotProduct, Fin.sum_univ_two]
    simpa using congrFun hzero 0

end Kkt

end GibbsNewton
