import GibbsNewton.Proofs.Kkt.Splitting
import Mathlib.Algebra.Group.Pi.Units

/-!
# The factorisations in exact arithmetic

For each way of factoring a real Newton system: when it succeeds, and that the direction it then
gives solves the Newton equations.  Success always means that the whole matrix is invertible; the
range-space method asks in addition that the curvature `G` is.  An invertible system has one
solution, so two factorisations of the same system that both succeed give the same direction.

## Main results

* `Kkt.System.isSome_factorFullspace`, `Kkt.System.isSome_factorNullspace`,
  `Kkt.System.isSome_factorRangespace` — when each method succeeds.
* `Kkt.newton_equations_of_factor` — **a factorisation solves the system that was factored.**
* `Kkt.methods_agree` — **the methods succeed together and agree.**
-/

namespace GibbsNewton.Kkt

open Matrix

variable {n m : ℕ}

namespace System

/-! ### The whole matrix -/

theorem stack_ofReal (dx : Fin n → ℝ) (dy : Fin m → ℝ) (dz : Fin n → ℝ) :
    stack (Vec.ofReal dx) (Vec.ofReal dy) (Vec.ofReal dz) =
      Vec.ofReal (column dx dy dz ∘ unknownAt) := by
  ext i
  cases i using Fin.addCases with
  | left i => cases i using Fin.addCases <;> simp [stack, column, unknownAt]
  | right i => simp [stack, column, unknownAt]

theorem unstack_ofReal (v : Unknown n m → ℝ) :
    unstack (Vec.ofReal (v ∘ unknownAt)) = (ofColumn v).exact := by
  rw [unstack, Direction.exact]
  congr 1 <;> ext i <;> simp [unknownAt, ofColumn]

/-- The stored matrix of the whole system is the block matrix. -/
theorem whole_exact (s : System ℝ n m) :
    s.exact.whole = Mat.ofReal (s.blockMatrix.submatrix unknownAt unknownAt) := by
  apply Mat.ext_apply
  intro i j
  -- three block rows and three block columns
  cases i using Fin.addCases with
  | left i =>
    cases i using Fin.addCases with
    | left i =>
      cases j using Fin.addCases with
      | left j => cases j using Fin.addCases <;> simp [whole, stack, exact, blockMatrix, unknownAt]
      | right j => by_cases h : i = j <;> simp [whole, stack, blockMatrix, unknownAt, h]
    | right i =>
      cases j using Fin.addCases with
      | left j => cases j using Fin.addCases <;> simp [whole, stack, exact, blockMatrix, unknownAt]
      | right j => simp [whole, stack, blockMatrix, unknownAt]
  | right i =>
    cases j using Fin.addCases with
    | left j =>
      cases j using Fin.addCases with
      | left j => by_cases h : i = j <;> simp [whole, stack, exact, blockMatrix, unknownAt, h]
      | right j => simp [whole, stack, blockMatrix, unknownAt]
    | right j => by_cases h : i = j <;> simp [whole, stack, exact, blockMatrix, unknownAt, h]

theorem isSome_factorFullspace (s : System ℝ n m) :
    s.exact.factorFullspace.isSome = true ↔ IsUnit s.blockMatrix := by
  rw [factorFullspace, whole_exact, Option.isSome_ite, LU.usable_factor_iff,
    isUnit_submatrix_equiv]

/-- The full-space method solves the Newton equations. -/
theorem exists_solves_of_factorFullspace {s : System ℝ n m} {F : Factorization Exact n m}
    (hF : s.exact.factorFullspace = some F) (r : Rhs ℝ n m) :
    ∃ d : Direction ℝ n m, F.solve s.exact r.exact = d.exact ∧ s.Solves d r := by
  have hK : IsUnit s.blockMatrix := (isSome_factorFullspace s).mp (Option.isSome_of_eq_some hF)
  rw [factorFullspace, whole_exact, Option.ite_none_right_eq_some] at hF
  obtain ⟨-, hF⟩ := hF
  obtain rfl := Option.some.inj hF
  have hK' := (isUnit_submatrix_equiv (A := s.blockMatrix) unknownAt unknownAt).mpr hK
  set c := column ⇑r.rx ⇑r.ry ⇑r.rz with hc
  have hsolution : (s.blockMatrix.submatrix unknownAt unknownAt)⁻¹ *ᵥ (c ∘ unknownAt) =
      (s.blockMatrix⁻¹ *ᵥ c) ∘ unknownAt := by
    rw [inv_submatrix_equiv, submatrix_mulVec_equiv]
    congr 2
    funext u
    simp
  refine ⟨ofColumn (s.blockMatrix⁻¹ *ᵥ c), ?_, solves_iff_blockMatrix.mpr ?_⟩
  · rw [Factorization.solve, Rhs.exact, stack_ofReal, ← hc, LU.solve_factor hK', hsolution,
      unstack_ofReal]
  · have hinv := mul_nonsing_inv s.blockMatrix ((isUnit_iff_isUnit_det _).mp hK)
    rw [column_ofColumn, mulVec_mulVec, hinv, one_mulVec]

/-! ### The range-space method -/

/-- A direction whose variables and constraint multipliers solve the condensed equations solves the
Newton equations. -/
theorem exists_solves_of_condensed {s : System ℝ n m} (hx : ∀ i, s.x i ≠ 0) {r : Rhs ℝ n m}
    {dx : Fin n → ℝ} {dy : Fin m → ℝ}
    (h : s.curvatureMatrix *ᵥ dx - s.jacobian.toMatrixᵀ *ᵥ dy = s.condensed r ∧
      s.jacobian.toMatrix *ᵥ dx = ⇑r.ry) :
    ∃ d : Direction ℝ n m,
      (⟨Vec.ofReal dx, Vec.ofReal dy, s.exact.boundChange r.exact (Vec.ofReal dx)⟩ :
        Direction Exact n m) = d.exact ∧ s.Solves d r := by
  refine ⟨⟨Vec.of dx, Vec.of dy, Vec.of (s.boundStep r dx)⟩, ?_, (solves_iff_condensed hx).mpr ?_⟩
  · simp [Direction.exact, boundChange_exact hx]
  · simpa using h

/-- The Schur complement of the curvature. -/
noncomputable def schurMatrix (s : System ℝ n m) : Matrix (Fin m) (Fin m) ℝ :=
  s.jacobian.toMatrix * (s.curvatureMatrix⁻¹ * s.jacobian.toMatrixᵀ)

/-- With an invertible curvature, the whole matrix is invertible exactly when the Schur complement
is. -/
theorem isUnit_schurMatrix_iff {s : System ℝ n m} (hx : ∀ i, s.x i ≠ 0)
    (hG : IsUnit s.curvatureMatrix) : IsUnit s.schurMatrix ↔ IsUnit s.blockMatrix := by
  set G := s.curvatureMatrix with hGdef
  set A := s.jacobian.toMatrix with hAdef
  have hinv := mul_nonsing_inv G ((isUnit_iff_isUnit_det G).mp hG)
  have hschur : ∀ y, s.schurMatrix *ᵥ y = A *ᵥ (G⁻¹ *ᵥ (Aᵀ *ᵥ y)) := by
    intro y
    rw [schurMatrix, mulVec_mulVec, mulVec_mulVec, ← hGdef, ← hAdef, Matrix.mul_assoc]
  rw [isUnit_blockMatrix_iff hx, isUnit_iff_forall_mulVec]
  constructor
  · intro h dx dy hGdx hAdx
    have hdx : dx = G⁻¹ *ᵥ (Aᵀ *ᵥ dy) := eq_inv_mulVec hG hGdx
    have hdy : dy = 0 := h dy (by rw [hschur, ← hdx, hAdx])
    exact ⟨by rw [hdx, hdy, mulVec_zero, mulVec_zero], hdy⟩
  · intro h y hy
    rw [hschur] at hy
    exact (h (G⁻¹ *ᵥ (Aᵀ *ᵥ y)) y (by rw [mulVec_mulVec, hinv, one_mulVec]) hy).2

/-- The block elimination solves the condensed equations. -/
theorem condensed_of_schur {s : System ℝ n m} (hG : IsUnit s.curvatureMatrix)
    (hS : IsUnit s.schurMatrix) (c : Fin n → ℝ) (b : Fin m → ℝ) {dx : Fin n → ℝ} {dy : Fin m → ℝ}
    (hdy : dy = s.schurMatrix⁻¹ *ᵥ (b - s.jacobian.toMatrix *ᵥ (s.curvatureMatrix⁻¹ *ᵥ c)))
    (hdx : dx = s.curvatureMatrix⁻¹ *ᵥ (c + s.jacobian.toMatrixᵀ *ᵥ dy)) :
    s.curvatureMatrix *ᵥ dx - s.jacobian.toMatrixᵀ *ᵥ dy = c ∧ s.jacobian.toMatrix *ᵥ dx = b := by
  set G := s.curvatureMatrix with hGdef
  set A := s.jacobian.toMatrix with hAdef
  have hGinv := mul_nonsing_inv G ((isUnit_iff_isUnit_det G).mp hG)
  have hSinv := mul_nonsing_inv s.schurMatrix ((isUnit_iff_isUnit_det _).mp hS)
  have hschur : A *ᵥ (G⁻¹ *ᵥ (Aᵀ *ᵥ dy)) = b - A *ᵥ (G⁻¹ *ᵥ c) := by
    calc A *ᵥ (G⁻¹ *ᵥ (Aᵀ *ᵥ dy)) = s.schurMatrix *ᵥ dy := by
          rw [schurMatrix, mulVec_mulVec, mulVec_mulVec, ← hGdef, ← hAdef, Matrix.mul_assoc]
      _ = b - A *ᵥ (G⁻¹ *ᵥ c) := by rw [hdy, mulVec_mulVec, hSinv, one_mulVec]
  constructor
  · rw [hdx, mulVec_mulVec, hGinv, one_mulVec, add_sub_cancel_right]
  · rw [hdx, mulVec_add, mulVec_add, hschur, add_sub_cancel]

theorem isSome_factorRangespaceDense {s : System ℝ n m} (hx : ∀ i, s.x i ≠ 0) :
    s.exact.factorRangespaceDense.isSome = true ↔
      IsUnit s.blockMatrix ∧ IsUnit s.curvatureMatrix := by
  rw [factorRangespaceDense, curvature_exact hx, Option.isSome_ite, Bool.and_eq_true,
    LU.usable_factor_iff]
  have hjacobian : s.exact.jacobian = Mat.ofReal s.jacobian.toMatrix := rfl
  rw [and_comm]
  refine and_congr_left fun hG => ?_
  rw [hjacobian, Mat.transpose_ofReal, LU.solveColumns_factor hG, Mat.mul_ofReal,
    LU.usable_factor_iff]
  exact isUnit_schurMatrix_iff hx hG

/-- The range-space method with a full curvature solves the Newton equations. -/
theorem exists_solves_of_factorRangespaceDense {s : System ℝ n m} (hx : ∀ i, s.x i ≠ 0)
    {F : Factorization Exact n m} (hF : s.exact.factorRangespaceDense = some F) (r : Rhs ℝ n m) :
    ∃ d : Direction ℝ n m, F.solve s.exact r.exact = d.exact ∧ s.Solves d r := by
  obtain ⟨hK, hG⟩ := (isSome_factorRangespaceDense hx).mp (Option.isSome_of_eq_some hF)
  have hS := (isUnit_schurMatrix_iff hx hG).mpr hK
  have hjacobian : s.exact.jacobian = Mat.ofReal s.jacobian.toMatrix := rfl
  have hry : r.exact.ry = Vec.ofReal ⇑r.ry := rfl
  rw [factorRangespaceDense, curvature_exact hx, Option.ite_none_right_eq_some] at hF
  obtain ⟨-, hF⟩ := hF
  obtain rfl := Option.some.inj hF
  rw [hjacobian, Mat.transpose_ofReal, LU.solveColumns_factor hG, Mat.mul_ofReal,
    ← schurMatrix, Factorization.solve, condense_exact hx, LU.solve_factor hG, hjacobian, hry,
    Mat.mulVec_ofReal, Vec.sub_ofReal, LU.solve_factor hS, Mat.mulVec_ofReal, Vec.add_ofReal]
  refine exists_solves_of_condensed hx (condensed_of_schur hG hS _ _ rfl ?_)
  rw [mulVec_add, mulVec_mulVec _ s.curvatureMatrix⁻¹ s.jacobian.toMatrixᵀ]

/-- The curvature of a system with diagonal second derivatives. -/
theorem curvatureMatrix_of_diagonal {s : System ℝ n m} {d : Vec ℝ n}
    (hd : s.hessian = .diagonal d) :
    s.curvatureMatrix = Matrix.diagonal fun i => d i + s.z i / s.x i := by
  rw [curvatureMatrix, hd, Hessian.matrix, diagonal_add]

/-- The entrywise inverse of a diagonal curvature is finite exactly when the curvature is
invertible. -/
theorem isFinite_inverse_iff {s : System ℝ n m} (hx : ∀ i, s.x i ≠ 0) {d : Vec ℝ n}
    (hd : s.hessian = .diagonal d) :
    (Vec.of fun i => 1 / (Vec.ofReal (⇑d) i + s.exact.z i / s.exact.x i)).isFinite = true ↔
      IsUnit s.curvatureMatrix := by
  rw [curvatureMatrix_of_diagonal hd, isUnit_diagonal, Pi.isUnit_iff, Vec.isFinite_iff_forall]
  apply forall_congr'
  intro i
  rw [isUnit_iff_ne_zero]
  simp [exact, Exact.div_coe _ (hx i)]

/-- The entrywise inverse of an invertible diagonal curvature. -/
theorem exists_inverse {s : System ℝ n m} (hx : ∀ i, s.x i ≠ 0) {d : Vec ℝ n}
    (hd : s.hessian = .diagonal d) (hG : IsUnit s.curvatureMatrix) :
    ∃ g : Fin n → ℝ, s.curvatureMatrix⁻¹ = Matrix.diagonal g ∧
      (Vec.of fun i => 1 / (Vec.ofReal (⇑d) i + s.exact.z i / s.exact.x i)) = Vec.ofReal g := by
  rw [curvatureMatrix_of_diagonal hd, isUnit_diagonal, Pi.isUnit_iff] at hG
  have hne : ∀ i, d i + s.z i / s.x i ≠ 0 := fun i => isUnit_iff_ne_zero.mp (hG i)
  refine ⟨fun i => 1 / (d i + s.z i / s.x i), ?_, ?_⟩
  · rw [curvatureMatrix_of_diagonal hd]
    refine inv_eq_right_inv ?_
    rw [diagonal_mul_diagonal, ← diagonal_one]
    congr 1
    funext i
    exact mul_one_div_cancel (hne i)
  · ext i
    simp [exact, Exact.div_coe _ (hx i), Exact.div_coe _ (hne i)]

/-- The Schur complement of a diagonal curvature, with the columns of the constraints scaled. -/
theorem scaled_mul_transpose {s : System ℝ n m} {g : Fin n → ℝ}
    (hg : s.curvatureMatrix⁻¹ = Matrix.diagonal g) :
    (Mat.of fun i j => s.exact.jacobian i j * Vec.ofReal g j).mul s.exact.jacobian.transpose =
      Mat.ofReal s.schurMatrix := by
  have hjacobian : s.exact.jacobian = Mat.ofReal s.jacobian.toMatrix := rfl
  have hscaled : (Mat.of fun i j => s.exact.jacobian i j * Vec.ofReal g j) =
      Mat.ofReal (s.jacobian.toMatrix * Matrix.diagonal g) :=
    Mat.ext_apply fun i j => by simp [hjacobian, mul_diagonal]
  rw [hscaled, hjacobian, Mat.transpose_ofReal, Mat.mul_ofReal, schurMatrix, hg, Matrix.mul_assoc]

theorem isSome_factorRangespaceDiagonal {s : System ℝ n m} (hx : ∀ i, s.x i ≠ 0) {d : Vec ℝ n}
    (hd : s.hessian = .diagonal d) :
    (s.exact.factorRangespaceDiagonal (Vec.ofReal ⇑d)).isSome = true ↔
      IsUnit s.blockMatrix ∧ IsUnit s.curvatureMatrix := by
  rw [factorRangespaceDiagonal, Option.isSome_ite, Bool.and_eq_true, isFinite_inverse_iff hx hd,
    and_comm]
  refine and_congr_left fun hG => ?_
  obtain ⟨g, hg, hinverse⟩ := exists_inverse hx hd hG
  rw [hinverse, scaled_mul_transpose hg, LU.usable_factor_iff]
  exact isUnit_schurMatrix_iff hx hG

/-- The range-space method with a diagonal curvature solves the Newton equations. -/
theorem exists_solves_of_factorRangespaceDiagonal {s : System ℝ n m} (hx : ∀ i, s.x i ≠ 0)
    {d : Vec ℝ n} (hd : s.hessian = .diagonal d) {F : Factorization Exact n m}
    (hF : s.exact.factorRangespaceDiagonal (Vec.ofReal ⇑d) = some F) (r : Rhs ℝ n m) :
    ∃ e : Direction ℝ n m, F.solve s.exact r.exact = e.exact ∧ s.Solves e r := by
  obtain ⟨hK, hG⟩ := (isSome_factorRangespaceDiagonal hx hd).mp (Option.isSome_of_eq_some hF)
  have hS := (isUnit_schurMatrix_iff hx hG).mpr hK
  obtain ⟨g, hg, hinverse⟩ := exists_inverse hx hd hG
  have hjacobian : s.exact.jacobian = Mat.ofReal s.jacobian.toMatrix := rfl
  have hry : r.exact.ry = Vec.ofReal ⇑r.ry := rfl
  have hscale : ∀ v : Fin n → ℝ, (Vec.of fun i => Vec.ofReal g i * Vec.ofReal v i) =
      Vec.ofReal (s.curvatureMatrix⁻¹ *ᵥ v) := by
    intro v
    ext i
    rw [hg]
    simp [mulVec_diagonal]
  rw [factorRangespaceDiagonal, Option.ite_none_right_eq_some] at hF
  obtain ⟨-, hF⟩ := hF
  obtain rfl := Option.some.inj hF
  rw [hinverse, scaled_mul_transpose hg, Factorization.solve, condense_exact hx, hscale,
    hjacobian, hry, Mat.mulVec_ofReal, Vec.sub_ofReal, LU.solve_factor hS,
    Mat.transposeMulVec_ofReal]
  set dy := s.schurMatrix⁻¹ *ᵥ (⇑r.ry - s.jacobian.toMatrix *ᵥ (s.curvatureMatrix⁻¹ *ᵥ s.condensed r))
  have hdx : (Vec.of fun i => Vec.ofReal g i *
      (Vec.ofReal (s.condensed r) i + Vec.ofReal (s.jacobian.toMatrixᵀ *ᵥ dy) i)) =
      Vec.ofReal (s.curvatureMatrix⁻¹ *ᵥ (s.condensed r + s.jacobian.toMatrixᵀ *ᵥ dy)) := by
    rw [← hscale]
    apply Vec.ext
    intro i
    simp
  rw [hdx]
  exact exists_solves_of_condensed hx (condensed_of_schur hG hS _ _ rfl rfl)

/-- **When the range-space method succeeds**, whichever form the second derivatives have. -/
theorem isSome_factorRangespace {s : System ℝ n m} (hx : ∀ i, s.x i ≠ 0) :
    (s.exact.factor .rangespace).isSome = true ↔
      IsUnit s.blockMatrix ∧ IsUnit s.curvatureMatrix := by
  cases hH : s.hessian with
  | diagonal d =>
    have hfactor : s.exact.factor .rangespace = s.exact.factorRangespaceDiagonal (Vec.ofReal ⇑d) := by
      simp [factor, exact, hH, Hessian.exact]
    rw [hfactor, isSome_factorRangespaceDiagonal hx hH]
  | dense M =>
    have hfactor : s.exact.factor .rangespace = s.exact.factorRangespaceDense := by
      simp [factor, exact, hH, Hessian.exact]
    rw [hfactor, isSome_factorRangespaceDense hx]

/-! ### The null-space method -/

theorem diag_all_ne_zero_iff {R : Matrix (Fin m) (Fin m) ℝ} (hR : R.IsUpperTriangular) :
    (Mat.ofReal R).diag.all (fun r => !(r == 0)) = true ↔ IsUnit R := by
  rw [Mat.isUnit_iff_diag_ne_zero hR, Vec.all_iff]
  simp

section

variable {qr : Mat.Factoring Exact} (hqr : qr.IsOrthogonal) {s : System ℝ n m} (hx : ∀ i, s.x i ≠ 0)

include hqr hx

/-- The null-space method on a real system, in terms of the splitting that it reads off. -/
theorem exists_factorNullspace_eq (h : m ≤ n) :
    ∃ Q₁ Q₂ R₁, Splitting s.jacobian.toMatrix Q₁ Q₂ R₁ ∧
      s.exact.factorNullspace qr =
        if (Mat.ofReal R₁).diag.all (fun r => !(r == 0)) &&
            (LU.factor (Mat.ofReal (s.reducedCurvature Q₂))).usable then
          some (.nullspace (Mat.ofReal s.curvatureMatrix) (Mat.ofReal Q₁) (Mat.ofReal Q₂)
            (Mat.ofReal R₁) (LU.factor (Mat.ofReal (s.reducedCurvature Q₂))))
        else none := by
  obtain ⟨Q, R, hfactors, hsplit⟩ := exists_splitting hqr h s.jacobian.toMatrix
  refine ⟨_, _, _, hsplit, ?_⟩
  have hjacobian : s.exact.jacobian = Mat.ofReal s.jacobian.toMatrix := rfl
  have hcolumns : ∀ {k l j : ℕ} (B : Matrix (Fin k) (Fin l) ℝ) (f : Fin j → Fin l),
      (Mat.of fun i a => Mat.ofReal B i (f a)) = Mat.ofReal (B.submatrix id f) :=
    fun B f => Mat.ext_apply fun i a => by simp
  have hrows : ∀ {k l j : ℕ} (B : Matrix (Fin k) (Fin l) ℝ) (f : Fin j → Fin k),
      (Mat.of fun i a => Mat.ofReal B (f i) a) = Mat.ofReal (B.submatrix f id) :=
    fun B f => Mat.ext_apply fun i a => by simp
  rw [factorNullspace, dif_pos h, curvature_exact hx, hjacobian, Mat.transpose_ofReal,
    hfactors]
  simp only [hcolumns, hrows, Mat.transpose_ofReal, Mat.mul_ofReal, Mat.isFinite_ofReal,
    Bool.true_and, reducedCurvature]
  rfl

/-- **When the null-space method succeeds.** -/
theorem isSome_factorNullspace :
    (s.exact.factorNullspace qr).isSome = true ↔ IsUnit s.blockMatrix := by
  rcases Nat.lt_or_ge n m with h | h
  · have hnone : s.exact.factorNullspace qr = none := dif_neg (not_le.mpr h)
    rw [hnone]
    exact iff_of_false (by simp) (not_isUnit_of_lt hx h)
  · obtain ⟨Q₁, Q₂, R₁, hsplit, hfactor⟩ := exists_factorNullspace_eq hqr hx h
    rw [hfactor, Option.isSome_ite, Bool.and_eq_true, diag_all_ne_zero_iff hsplit.triangular,
      LU.usable_factor_iff, isUnit_blockMatrix_iff_splitting hx hsplit]

/-- The null-space method solves the Newton equations. -/
theorem exists_solves_of_factorNullspace {F : Factorization Exact n m}
    (hF : s.exact.factorNullspace qr = some F) (r : Rhs ℝ n m) :
    ∃ d : Direction ℝ n m, F.solve s.exact r.exact = d.exact ∧ s.Solves d r := by
  have h : m ≤ n := by
    by_contra h
    rw [factorNullspace, dif_neg h] at hF
    exact absurd hF nofun
  obtain ⟨Q₁, Q₂, R₁, hsplit, hfactor⟩ := exists_factorNullspace_eq hqr hx h
  rw [hfactor, Option.ite_none_right_eq_some, Bool.and_eq_true,
    diag_all_ne_zero_iff hsplit.triangular, LU.usable_factor_iff] at hF
  obtain ⟨⟨hR, hB⟩, hF⟩ := hF
  obtain rfl := Option.some.inj hF
  have hry : r.exact.ry = Vec.ofReal ⇑r.ry := rfl
  rw [Factorization.solve, condense_exact hx, hry, Mat.transpose_ofReal,
    Mat.solveLower_ofReal hsplit.triangular hR, Mat.mulVec_ofReal, Mat.mulVec_ofReal,
    Vec.sub_ofReal, Mat.transposeMulVec_ofReal, LU.solve_factor hB, Mat.mulVec_ofReal,
    Vec.add_ofReal, Mat.mulVec_ofReal, Vec.sub_ofReal, Mat.transposeMulVec_ofReal,
    Mat.solveUpper_ofReal hsplit.triangular hR]
  exact exists_solves_of_condensed hx (condensed_of_splitting hsplit hR hB _ _ rfl rfl)

end

/-! ### The methods together -/

/-- When a method succeeds: always for an invertible system, except that the range-space method
needs an invertible curvature as well. -/
theorem isSome_factor_iff {s : System ℝ n m} (hx : ∀ i, s.x i ≠ 0) (method : Method) :
    (s.exact.factor method).isSome = true ↔
      IsUnit s.blockMatrix ∧ (method = .rangespace → IsUnit s.curvatureMatrix) := by
  cases method with
  | rangespace => simpa using isSome_factorRangespace hx
  | fullspace => simpa [factor] using isSome_factorFullspace s
  | nullspace => simpa [factor] using isSome_factorNullspace Mat.isOrthogonal_reflecting hx

/-- A factorisation by any method solves the Newton equations. -/
theorem exists_solves {s : System ℝ n m} (hx : ∀ i, s.x i ≠ 0) {method : Method}
    {F : Factorization Exact n m} (hF : s.exact.factor method = some F) (r : Rhs ℝ n m) :
    ∃ d : Direction ℝ n m, F.solve s.exact r.exact = d.exact ∧ s.Solves d r := by
  cases method with
  | rangespace =>
    cases hH : s.hessian with
    | diagonal d =>
      refine exists_solves_of_factorRangespaceDiagonal hx hH ?_ r
      rw [← hF, factor, exact, hH]
      rfl
    | dense M =>
      refine exists_solves_of_factorRangespaceDense hx ?_ r
      rw [← hF, factor, exact, hH]
      rfl
  | fullspace => exact exists_solves_of_factorFullspace hF r
  | nullspace => exact exists_solves_of_factorNullspace Mat.isOrthogonal_reflecting hx hF r

/-- The same system with its second derivatives given in full. -/
def dense (s : System ℝ n m) : System ℝ n m :=
  { s with hessian := .dense (Mat.of fun i j => s.hessian.matrix i j) }

@[simp] theorem hessian_matrix_dense (s : System ℝ n m) :
    s.dense.hessian.matrix = s.hessian.matrix := by
  ext i j
  simp [dense, Hessian.matrix]

theorem blockMatrix_dense (s : System ℝ n m) : s.dense.blockMatrix = s.blockMatrix := by
  rw [blockMatrix, hessian_matrix_dense]
  rfl

theorem curvatureMatrix_dense (s : System ℝ n m) :
    s.dense.curvatureMatrix = s.curvatureMatrix := by
  rw [curvatureMatrix, hessian_matrix_dense]
  rfl

theorem solves_dense {s : System ℝ n m} {d : Direction ℝ n m} {r : Rhs ℝ n m} :
    s.dense.Solves d r ↔ s.Solves d r := by
  rw [solves_iff_blockMatrix, solves_iff_blockMatrix, blockMatrix_dense]

end System

/-- **A factorisation solves the system that was factored**: whatever the method, the form of the
second derivatives and the sizes, the direction that it gives is real and meets the three Newton
equations. -/
theorem newton_equations_of_factor (s : System ℝ n m) (hx : ∀ i, s.x i ≠ 0) {method : Method}
    {F : Factorization Exact n m} (hF : s.exact.factor method = some F) (r : Rhs ℝ n m) :
    ∃ d : Direction ℝ n m, F.solve s.exact r.exact = d.exact ∧
      s.hessian.matrix *ᵥ ⇑d.dx - s.jacobian.toMatrixᵀ *ᵥ ⇑d.dy - ⇑d.dz = ⇑r.rx ∧
        s.jacobian.toMatrix *ᵥ ⇑d.dx = ⇑r.ry ∧ ∀ i, s.z i * d.dx i + s.x i * d.dz i = r.rz i := by
  obtain ⟨d, hd, hstationarity, hfeasibility, hcentrality⟩ := System.exists_solves hx hF r
  exact ⟨d, hd, hstationarity, hfeasibility, hcentrality⟩

/-- A system whose second derivatives are not symmetric. -/
def skewSystem : System ℝ 2 1 where
  hessian := .dense (Mat.of ![![2, 1], ![0, 1]])
  jacobian := Mat.of ![![1, 1]]
  x := Vec.of ![1, 1]
  z := Vec.of ![1, 1]

theorem skewSystem_x_ne_zero (i : Fin 2) : skewSystem.x i ≠ 0 := by
  fin_cases i <;> simp [skewSystem]

theorem isUnit_skewSystem :
    IsUnit skewSystem.blockMatrix ∧ IsUnit skewSystem.curvatureMatrix := by
  have hG : skewSystem.curvatureMatrix = !![3, 1; 0, 2] := by
    ext i j
    fin_cases i <;> fin_cases j <;>
      simp [System.curvatureMatrix, skewSystem, Hessian.matrix] <;> norm_num
  have hA : skewSystem.jacobian.toMatrix = !![1, 1] := by
    ext i j
    fin_cases j <;> simp [skewSystem]
  constructor
  · rw [System.isUnit_blockMatrix_iff skewSystem_x_ne_zero, hG, hA]
    intro dx dy hstationary hfeasible
    have h₀ := congrFun hstationary 0
    have h₁ := congrFun hstationary 1
    have h₂ := congrFun hfeasible 0
    simp [mulVec, dotProduct, Fin.sum_univ_two] at h₀ h₁ h₂
    constructor
    · funext i
      fin_cases i <;> simp <;> linarith
    · funext i
      fin_cases i
      simp
      linarith
  · rw [hG, isUnit_iff_isUnit_det, det_fin_two_of]
    norm_num

/-- A right-hand side for it. -/
def skewRhs : Rhs ℝ 2 1 where
  rx := Vec.of ![1, 0]
  ry := Vec.of ![1]
  rz := Vec.of ![0, 0]

/-- The null-space method factors a system whose curvature is not symmetric, and solves it. -/
theorem newton_equations_skewSystem :
    (∀ i, skewSystem.x i ≠ 0) ∧ ∃ F, skewSystem.exact.factor .nullspace = some F ∧
      ∃ d : Direction ℝ 2 1, F.solve skewSystem.exact skewRhs.exact = d.exact ∧
        skewSystem.hessian.matrix *ᵥ ⇑d.dx - skewSystem.jacobian.toMatrixᵀ *ᵥ ⇑d.dy - ⇑d.dz =
          ⇑skewRhs.rx ∧
        skewSystem.jacobian.toMatrix *ᵥ ⇑d.dx = ⇑skewRhs.ry ∧
        ∀ i, skewSystem.z i * d.dx i + skewSystem.x i * d.dz i = skewRhs.rz i := by
  have hsome : (skewSystem.exact.factor .nullspace).isSome = true := by
    rw [System.isSome_factor_iff skewSystem_x_ne_zero]
    simpa using isUnit_skewSystem.1
  obtain ⟨F, hF⟩ := Option.isSome_iff_exists.mp hsome
  exact ⟨skewSystem_x_ne_zero, F, hF,
    newton_equations_of_factor skewSystem skewSystem_x_ne_zero hF skewRhs⟩

/-- **The methods agree.**  The full-space method succeeds exactly when the whole matrix is
invertible, the null-space method then too, with any number of constraints, and the range-space
method when the curvature is invertible as well; a diagonal of second derivatives may be given
as such or in full; and any two factorisations of the system give the same direction. -/
theorem methods_agree (s : System ℝ n m) (hx : ∀ i, s.x i ≠ 0) :
    ((s.exact.factor .fullspace).isSome = true ↔ IsUnit s.blockMatrix) ∧
      (s.exact.factor .nullspace).isSome = (s.exact.factor .fullspace).isSome ∧
      ((s.exact.factor .rangespace).isSome = true ↔
        (s.exact.factor .fullspace).isSome = true ∧ IsUnit s.curvatureMatrix) ∧
      (∀ method, (s.dense.exact.factor method).isSome = (s.exact.factor method).isSome) ∧
      ∀ t ∈ [s, s.dense], ∀ t' ∈ [s, s.dense], ∀ (method method' : Method)
        (F F' : Factorization Exact n m), t.exact.factor method = some F →
          t'.exact.factor method' = some F' →
            ∀ r : Rhs ℝ n m, F.solve t.exact r.exact = F'.solve t'.exact r.exact := by
  have hdense : ∀ i, s.dense.x i ≠ 0 := hx
  refine ⟨?_, ?_, ?_, ?_, ?_⟩
  · simpa using System.isSome_factor_iff hx .fullspace
  · rw [Bool.eq_iff_iff, System.isSome_factor_iff hx, System.isSome_factor_iff hx]
    simp
  · rw [System.isSome_factor_iff hx, System.isSome_factor_iff hx]
    simp
  · intro method
    rw [Bool.eq_iff_iff, System.isSome_factor_iff hx, System.isSome_factor_iff hdense,
      System.blockMatrix_dense, System.curvatureMatrix_dense]
  · -- both directions solve the system `s`, which has one solution
    have hsolve : ∀ t ∈ [s, s.dense], ∀ (method : Method) (F : Factorization Exact n m),
        t.exact.factor method = some F → IsUnit s.blockMatrix ∧ ∀ r : Rhs ℝ n m,
          ∃ d : Direction ℝ n m, F.solve t.exact r.exact = d.exact ∧ s.Solves d r := by
      intro t ht method F hF
      have hsome := Option.isSome_of_eq_some hF
      rcases List.mem_pair.mp ht with rfl | rfl
      · exact ⟨((System.isSome_factor_iff hx method).mp hsome).1, System.exists_solves hx hF⟩
      · have hK := ((System.isSome_factor_iff hdense method).mp hsome).1
        rw [System.blockMatrix_dense] at hK
        refine ⟨hK, fun r => ?_⟩
        obtain ⟨d, hd, hsolves⟩ := System.exists_solves hdense hF r
        exact ⟨d, hd, System.solves_dense.mp hsolves⟩
    intro t ht t' ht' method method' F F' hF hF' r
    obtain ⟨hK, hd⟩ := hsolve t ht method F hF
    obtain ⟨-, he⟩ := hsolve t' ht' method' F' hF'
    obtain ⟨d, hd, hds⟩ := hd r
    obtain ⟨e, he, hes⟩ := he r
    rw [hd, he, System.solves_unique hK hds hes]

/-- All three methods factor a system whose curvature is not symmetric. -/
theorem methods_agree_skewSystem :
    (∀ i, skewSystem.x i ≠ 0) ∧ (skewSystem.exact.factor .fullspace).isSome = true ∧
      (skewSystem.exact.factor .nullspace).isSome = true ∧
      (skewSystem.exact.factor .rangespace).isSome = true := by
  obtain ⟨hfull, hnull, hrange, -⟩ := methods_agree skewSystem skewSystem_x_ne_zero
  have hsome := hfull.mpr isUnit_skewSystem.1
  exact ⟨skewSystem_x_ne_zero, hsome, hnull.trans hsome, hrange.mpr ⟨hsome, isUnit_skewSystem.2⟩⟩

end GibbsNewton.Kkt
