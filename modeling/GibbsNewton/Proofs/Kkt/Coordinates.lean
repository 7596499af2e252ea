import GibbsNewton.Proofs.Kkt.Direction
import Mathlib.Algebra.Module.Equiv.Basic
import Mathlib.LinearAlgebra.Pi

/-!
# Newton systems in other coordinates

The variables of a Newton system may be listed in another order and measured in another unit, and its
constraints may be replaced by combinations of them that have the same zeros.  The equations then change
their looks: with the order `P`, the unit `σ` and the combinations `M`,

    x ↦ σ P x      y ↦ M⁻ᵀ y      z ↦ P z      A ↦ M A Pᵀ      H ↦ P H Pᵀ / σ

Their solutions are those of the original equations in the new coordinates, and the matrices that have
to be inverted are so before and after.  None of what the factorisations compute corresponds entry by
entry, so that this is a statement about the equations, which the factorisations are known to solve.

## Main definitions

* `Coordinates` — an order, a unit and a basis.
* `Coordinates.primal`, `Coordinates.multiplier`, `Coordinates.dual`, `Coordinates.constraint` — the
  linear maps to the new coordinates.
* `Coordinates.system`, `Coordinates.rhs`, `Coordinates.direction` — a Newton system in them.

## Main results

* `Coordinates.solves_direction` — **solutions stay solutions.**
* `Coordinates.isUnit_blockMatrix_iff`, `Coordinates.isUnit_curvatureMatrix_iff` — **invertible systems
  stay invertible.**
-/

namespace GibbsNewton

open Matrix

variable {n m : ℕ}

/-! ### Coordinates -/

/-- Other coordinates: the variables in another order and unit, and another basis of the constraints. -/
structure Coordinates (n m : ℕ) where
  /-- What a variable of size one becomes. -/
  scale : ℝ
  scale_pos : 0 < scale
  /-- Which of the old variables stands at a new place. -/
  order : Equiv.Perm (Fin n)
  /-- The combinations of constraints that replace them. -/
  basis : (Matrix (Fin m) (Fin m) ℝ)ˣ

namespace Coordinates

variable (T : Coordinates n m)

/-- Variables in the new coordinates. -/
noncomputable def primal : (Fin n → ℝ) ≃ₗ[ℝ] (Fin n → ℝ) where
  toFun x i := T.scale * x (T.order i)
  invFun x i := T.scale⁻¹ * x (T.order.symm i)
  map_add' x y := funext fun i => mul_add _ _ _
  map_smul' a x := funext fun i => mul_left_comm _ _ _
  left_inv x := funext fun i => by simp [T.scale_pos.ne']
  right_inv x := funext fun i => by simp [T.scale_pos.ne']

/-- Bound multipliers, and with them all that is counted by variable but not by unit. -/
noncomputable def dual : (Fin n → ℝ) ≃ₗ[ℝ] (Fin n → ℝ) where
  toFun z i := z (T.order i)
  invFun z i := z (T.order.symm i)
  map_add' _ _ := rfl
  map_smul' _ _ := rfl
  left_inv z := funext fun i => by simp
  right_inv z := funext fun i => by simp

/-- Constraint multipliers in the new coordinates. -/
noncomputable def multiplier : (Fin m → ℝ) ≃ₗ[ℝ] (Fin m → ℝ) where
  toFun y := (↑T.basis⁻¹ : Matrix (Fin m) (Fin m) ℝ)ᵀ *ᵥ y
  invFun y := (↑T.basis : Matrix (Fin m) (Fin m) ℝ)ᵀ *ᵥ y
  map_add' := mulVec_add _
  map_smul' a y := mulVec_smul _ a y
  left_inv y := by
    dsimp only
    rw [mulVec_mulVec, ← transpose_mul, Units.inv_mul, transpose_one, one_mulVec]
  right_inv y := by
    dsimp only
    rw [mulVec_mulVec, ← transpose_mul, Units.mul_inv, transpose_one, one_mulVec]

/-- Values of the constraints in the new coordinates. -/
noncomputable def constraint : (Fin m → ℝ) ≃ₗ[ℝ] (Fin m → ℝ) where
  toFun h := T.scale • ((↑T.basis : Matrix (Fin m) (Fin m) ℝ) *ᵥ h)
  invFun h := T.scale⁻¹ • ((↑T.basis⁻¹ : Matrix (Fin m) (Fin m) ℝ) *ᵥ h)
  map_add' g h := by rw [mulVec_add, smul_add]
  map_smul' a h := by rw [mulVec_smul, smul_comm, RingHom.id_apply]
  left_inv h := by
    dsimp only
    rw [mulVec_smul, smul_smul, inv_mul_cancel₀ T.scale_pos.ne', one_smul, mulVec_mulVec,
      Units.inv_mul, one_mulVec]
  right_inv h := by
    dsimp only
    rw [mulVec_smul, smul_smul, mul_inv_cancel₀ T.scale_pos.ne', one_smul, mulVec_mulVec,
      Units.mul_inv, one_mulVec]

@[simp] theorem primal_apply (x : Fin n → ℝ) (i : Fin n) :
    T.primal x i = T.scale * x (T.order i) := rfl

@[simp] theorem dual_apply (z : Fin n → ℝ) (i : Fin n) : T.dual z i = z (T.order i) := rfl

theorem multiplier_apply (y : Fin m → ℝ) :
    T.multiplier y = (↑T.basis⁻¹ : Matrix (Fin m) (Fin m) ℝ)ᵀ *ᵥ y := rfl

theorem constraint_apply (h : Fin m → ℝ) :
    T.constraint h = T.scale • ((↑T.basis : Matrix (Fin m) (Fin m) ℝ) *ᵥ h) := rfl

/-! ### Matrices -/

/-- A Jacobian of the constraints in the new coordinates. -/
def jacobian (A : Matrix (Fin m) (Fin n) ℝ) : Matrix (Fin m) (Fin n) ℝ :=
  (↑T.basis : Matrix (Fin m) (Fin m) ℝ) * A.submatrix id T.order

/-- Second derivatives in the new coordinates. -/
noncomputable def second (H : Matrix (Fin n) (Fin n) ℝ) : Matrix (Fin n) (Fin n) ℝ :=
  Matrix.of fun i j => H (T.order i) (T.order j) / T.scale

/-- A sum over the variables does not depend on their order. -/
theorem sum_order (f : Fin n → ℝ) : ∑ i, f (T.order i) = ∑ i, f i := Equiv.sum_comp T.order f

theorem jacobian_mulVec (A : Matrix (Fin m) (Fin n) ℝ) (x : Fin n → ℝ) :
    T.jacobian A *ᵥ T.primal x = T.constraint (A *ᵥ x) := by
  have hcolumns : A.submatrix id T.order *ᵥ T.primal x = T.scale • (A *ᵥ x) := by
    funext i
    calc ∑ j, A i (T.order j) * (T.scale * x (T.order j))
        = ∑ j, A i j * (T.scale * x j) := T.sum_order fun j => A i j * (T.scale * x j)
      _ = T.scale * ∑ j, A i j * x j := by
        rw [Finset.mul_sum]
        exact Finset.sum_congr rfl fun j _ => mul_left_comm _ _ _
  rw [jacobian, ← mulVec_mulVec, hcolumns, mulVec_smul, constraint_apply]

theorem transpose_jacobian_mulVec (A : Matrix (Fin m) (Fin n) ℝ) (y : Fin m → ℝ) :
    (T.jacobian A)ᵀ *ᵥ T.multiplier y = T.dual (Aᵀ *ᵥ y) := by
  have hbasis : (↑T.basis : Matrix (Fin m) (Fin m) ℝ)ᵀ *ᵥ T.multiplier y = y :=
    T.multiplier.symm_apply_apply y
  rw [jacobian, transpose_mul, ← mulVec_mulVec, hbasis]
  rfl

theorem second_mulVec (H : Matrix (Fin n) (Fin n) ℝ) (x : Fin n → ℝ) :
    T.second H *ᵥ T.primal x = T.dual (H *ᵥ x) := by
  funext i
  have hterm : ∀ j, T.second H i j * T.primal x j = H (T.order i) (T.order j) * x (T.order j) := by
    intro j
    rw [second, Matrix.of_apply, primal_apply]
    field_simp [T.scale_pos.ne']
  calc ∑ j, T.second H i j * T.primal x j
      = ∑ j, H (T.order i) (T.order j) * x (T.order j) := Finset.sum_congr rfl fun j _ => hterm j
    _ = ∑ j, H (T.order i) j * x j := T.sum_order fun j => H (T.order i) j * x j

end Coordinates

/-! ### Second derivatives -/

/-- The entries of a vector in another order. -/
def Vec.reorder {α : Type} (v : Vec α n) (e : Equiv.Perm (Fin n)) : Vec α n := Vec.of fun i => v (e i)

@[simp] theorem Vec.reorder_apply {α : Type} (v : Vec α n) (e : Equiv.Perm (Fin n)) (i : Fin n) :
    v.reorder e i = v (e i) := of_apply _ _

theorem Vec.reorder_reorder_symm {α : Type} (v : Vec α n) (e : Equiv.Perm (Fin n)) :
    (v.reorder e).reorder e.symm = v := by
  apply Vec.ext
  intro i
  simp

namespace Hessian

variable {α β : Type}

/-- Second derivatives with the variables in another order. -/
def reorder (H : Hessian α n) (e : Equiv.Perm (Fin n)) : Hessian α n :=
  match H with
  | diagonal d => .diagonal (d.reorder e)
  | dense M => .dense (Mat.of fun i j => M (e i) (e j))

/-- A function applied to every second derivative. -/
def map (f : α → β) : Hessian α n → Hessian β n
  | diagonal d => .diagonal (d.map f)
  | dense M => .dense (Mat.of fun i j => f (M i j))

variable [Scalar α] [Scalar β]

theorem toMat_reorder_apply (H : Hessian α n) (e : Equiv.Perm (Fin n)) (i j : Fin n) :
    (H.reorder e).toMat i j = H.toMat (e i) (e j) := by
  cases H <;> simp [reorder, toMat]

theorem toMat_map_apply {f : α → β} (hf : f 0 = 0) (H : Hessian α n) (i j : Fin n) :
    (H.map f).toMat i j = f (H.toMat i j) := by
  cases H with
  | diagonal d => by_cases hij : i = j <;> simp [map, toMat, hij, hf]
  | dense M => simp [map, toMat]

end Hessian

namespace Coordinates

open Kkt

variable (T : Coordinates n m)

/-! ### Newton systems -/

/-- Second derivatives in the new coordinates, in the same form. -/
noncomputable def hessian (H : Hessian ℝ n) : Hessian ℝ n := (H.reorder T.order).map (· / T.scale)

/-- A Newton system in the new coordinates. -/
noncomputable def system (K : System ℝ n m) : System ℝ n m where
  hessian := T.hessian K.hessian
  jacobian := Mat.ofMatrix (T.jacobian K.jacobian.toMatrix)
  x := Vec.of (T.primal ⇑K.x)
  z := Vec.of (T.dual ⇑K.z)

/-- A right-hand side in the new coordinates. -/
noncomputable def rhs (q : Rhs ℝ n m) : Rhs ℝ n m where
  rx := Vec.of (T.dual ⇑q.rx)
  ry := Vec.of (T.constraint ⇑q.ry)
  rz := Vec.of (T.primal ⇑q.rz)

/-- A direction in the new coordinates. -/
noncomputable def direction (d : Direction ℝ n m) : Direction ℝ n m where
  dx := Vec.of (T.primal ⇑d.dx)
  dy := Vec.of (T.multiplier ⇑d.dy)
  dz := Vec.of (T.dual ⇑d.dz)

theorem hessian_matrix (H : Hessian ℝ n) : (T.hessian H).matrix = T.second H.matrix := by
  ext i j
  cases H with
  | diagonal d =>
    by_cases hij : i = j
    · simp [hessian, Hessian.reorder, Hessian.map, Hessian.matrix, second, hij]
    · simp [hessian, Hessian.reorder, Hessian.map, Hessian.matrix, second, hij]
  | dense M => simp [hessian, Hessian.reorder, Hessian.map, Hessian.matrix, second]

theorem curvatureMatrix_system (K : System ℝ n m) :
    (T.system K).curvatureMatrix = T.second K.curvatureMatrix := by
  ext i j
  have hne := T.scale_pos.ne'
  rw [System.curvatureMatrix, system, hessian_matrix, second, second, System.curvatureMatrix]
  by_cases hij : i = j
  · subst hij
    simp only [Matrix.add_apply, Matrix.of_apply, diagonal_apply_eq, Vec.of_apply, primal_apply,
      dual_apply]
    rw [add_div, div_div, mul_comm T.scale]
  · simp [hij]

/-- **Solutions stay solutions.** -/
theorem solves_direction {K : System ℝ n m} {d : Direction ℝ n m} {q : Rhs ℝ n m}
    (h : K.Solves d q) : (T.system K).Solves (T.direction d) (T.rhs q) where
  stationarity := by
    simp only [system, direction, rhs, Vec.get_of, Mat.toMatrix_ofMatrix, hessian_matrix,
      second_mulVec, transpose_jacobian_mulVec, ← map_sub, h.stationarity]
  feasibility := by
    simp only [system, direction, rhs, Vec.get_of, Mat.toMatrix_ofMatrix, jacobian_mulVec,
      h.feasibility]
  centrality i := by
    simp only [system, direction, rhs, Vec.of_apply, primal_apply, dual_apply, ← h.centrality]
    ring

/-- **An invertible curvature stays invertible.** -/
theorem isUnit_curvatureMatrix_iff (K : System ℝ n m) :
    IsUnit (T.system K).curvatureMatrix ↔ IsUnit K.curvatureMatrix := by
  rw [isUnit_iff_forall_mulVec, isUnit_iff_forall_mulVec, curvatureMatrix_system,
    T.primal.surjective.forall]
  simp only [second_mulVec, LinearEquiv.map_eq_zero_iff]

/-- **An invertible system stays invertible.** -/
theorem isUnit_blockMatrix_iff {K : System ℝ n m} (hx : ∀ i, K.x i ≠ 0) :
    IsUnit (T.system K).blockMatrix ↔ IsUnit K.blockMatrix := by
  have hx' : ∀ i, (T.system K).x i ≠ 0 := by
    intro i
    simp [system, hx, T.scale_pos.ne']
  rw [System.isUnit_blockMatrix_iff hx, System.isUnit_blockMatrix_iff hx', T.primal.surjective.forall]
  refine forall_congr' fun dx => ?_
  rw [T.multiplier.surjective.forall]
  refine forall_congr' fun dy => ?_
  have hjacobian : (T.system K).jacobian.toMatrix = T.jacobian K.jacobian.toMatrix :=
    Mat.toMatrix_ofMatrix _
  rw [curvatureMatrix_system, hjacobian, second_mulVec, transpose_jacobian_mulVec, jacobian_mulVec,
    T.dual.injective.eq_iff, LinearEquiv.map_eq_zero_iff, LinearEquiv.map_eq_zero_iff,
    LinearEquiv.map_eq_zero_iff]

/-! ### Exact values -/

/-- Second derivatives in other coordinates, read as exact values. -/
theorem hessian_exact (H : Hessian ℝ n) :
    (T.hessian H).exact = (H.exact.reorder T.order).map (· / (T.scale : Exact)) := by
  have hdiv : ∀ a : ℝ, (a : Exact) / (T.scale : Exact) = ((a / T.scale : ℝ) : Exact) :=
    fun a => Exact.div_coe a T.scale_pos.ne'
  cases H with
  | diagonal d =>
    simp only [hessian, Hessian.reorder, Hessian.map, Hessian.exact, Hessian.diagonal.injEq]
    apply Vec.ext
    intro i
    simp [hdiv]
  | dense M =>
    simp only [hessian, Hessian.reorder, Hessian.map, Hessian.exact, Hessian.dense.injEq]
    apply Mat.ext_apply
    intro i j
    simp [hdiv]

theorem zero_div_scale : (0 : Exact) / (T.scale : Exact) = 0 := by
  rw [Exact.zero_eq, Exact.div_coe _ T.scale_pos.ne', zero_div]

/-- They are finite when the original ones are. -/
theorem isFinite_hessian_iff (H : Hessian Exact n) :
    ((H.reorder T.order).map (· / (T.scale : Exact))).toMat.isFinite = true ↔
      H.toMat.isFinite = true := by
  have hfinite : ∀ a : Exact, Scalar.isFinite (a / (T.scale : Exact)) = Scalar.isFinite a := by
    intro a
    simp [T.scale_pos.ne']
  simp only [Mat.isFinite_iff_forall, Hessian.toMat_map_apply (f := (· / (T.scale : Exact)))
    T.zero_div_scale, Hessian.toMat_reorder_apply, hfinite]
  rw [T.order.forall_congr_right (q := fun i => ∀ j, Scalar.isFinite (H.toMat i (T.order j)) = true)]
  exact forall_congr' fun i =>
    T.order.forall_congr_right (q := fun j => Scalar.isFinite (H.toMat i j) = true)

end Coordinates

theorem Vec.reorder_ofReal (v : Fin n → ℝ) (e : Equiv.Perm (Fin n)) :
    (ofReal v).reorder e = ofReal fun i => v (e i) := by
  apply Vec.ext
  intro i
  simp

/-- A real matrix with its columns in another order. -/
theorem Mat.map_reorder_ofReal (A : Matrix (Fin m) (Fin n) ℝ) (e : Equiv.Perm (Fin n)) :
    (ofReal A).map (Vec.reorder · e) = ofReal (A.submatrix id e) := by
  apply Mat.ext_apply
  intro i j
  simp

theorem Vec.isFinite_reorder (v : Vec Exact n) (e : Equiv.Perm (Fin n)) :
    (v.reorder e).isFinite = v.isFinite := by
  rw [Bool.eq_iff_iff, isFinite_iff_forall, isFinite_iff_forall]
  simp only [reorder_apply]
  exact e.forall_congr_right (q := fun i => Scalar.isFinite (v i) = true)

/-- Finite combinations of numbers are finite only if these are. -/
theorem Mat.isFinite_mulVec_ofReal (B : Matrix (Fin m) (Fin m) ℝ) (h : Vec Exact m) :
    ((ofReal B).mulVec h).isFinite = h.isFinite := by
  rw [Bool.eq_iff_iff, isFinite_mulVec_iff]
  constructor
  · exact fun hB => Vec.isFinite_iff_forall.mpr fun i => Vec.isFinite_iff_forall.mp (hB i).2 i
  · exact fun hh i => ⟨by simp, hh⟩

/-- The same for a Jacobian with its columns in another order. -/
theorem Mat.isFinite_mul_ofReal (B : Matrix (Fin m) (Fin m) ℝ) (A : Mat Exact m n)
    (e : Equiv.Perm (Fin n)) :
    ((ofReal B).mul (A.map (Vec.reorder · e))).isFinite = A.isFinite := by
  rw [Bool.eq_iff_iff, isFinite_mul_iff, isFinite_iff_forall]
  constructor
  · intro h l j
    have hlj := (h l (e.symm j) l).2
    rwa [Vec.map_apply, Vec.reorder_apply, Equiv.apply_symm_apply] at hlj
  · exact fun h i j l => ⟨by simp, by simpa using h l (e j)⟩

end GibbsNewton
