import GibbsNewton.Kkt.Factorization
import GibbsNewton.Proofs.Kkt.Equations
import GibbsNewton.Proofs.Linear.Reflection
import Mathlib.LinearAlgebra.FiniteDimensional.Lemmas

/-!
# Row space and null space of the constraints

With at most as many constraints as variables, the orthogonal factors of `Aᵀ` split the space of the
variables into two parts with orthonormal bases `Q₁` and `Q₂`: the row space of `A`, in which
`Aᵀ = Q₁ R₁` with `R₁` upper triangular, and a part that `A` does not see when `R₁` is invertible.
In these terms the condensed Newton equations fall apart into a triangular system for the part of
`dx` in the row space, a system with the reduced curvature `Q₂ᵀ G Q₂` for the other part, and a
triangular system for `dy`.

## Main definitions

* `Kkt.Splitting` — orthonormal bases of the two parts, and the triangular factor.
* `Kkt.System.reducedCurvature` — the curvature seen by the second part.

## Main results

* `Kkt.exists_splitting` — the factors that the null-space method reads off are a splitting.
* `Kkt.System.isUnit_blockMatrix_iff_splitting` — the whole matrix is invertible exactly when the
  triangular factor and the reduced curvature are.
* `Kkt.System.not_isUnit_of_lt` — with more constraints than variables it never is.
* `Kkt.System.condensed_of_splitting` — the two parts put together solve the condensed equations.
-/

namespace GibbsNewton.Kkt

open Matrix

variable {n m : ℕ}

/-- Orthonormal bases of the row space of `A` and of the rest, with the triangular factor of `Aᵀ`. -/
structure Splitting (A : Matrix (Fin m) (Fin n) ℝ) (Q₁ : Matrix (Fin n) (Fin m) ℝ)
    (Q₂ : Matrix (Fin n) (Fin (n - m)) ℝ) (R₁ : Matrix (Fin m) (Fin m) ℝ) : Prop where
  /-- The first basis is orthonormal. -/
  range_range : Q₁ᵀ * Q₁ = 1
  /-- The two bases are orthogonal. -/
  range_kernel : Q₁ᵀ * Q₂ = 0
  /-- The two bases are orthogonal. -/
  kernel_range : Q₂ᵀ * Q₁ = 0
  /-- The second basis is orthonormal. -/
  kernel_kernel : Q₂ᵀ * Q₂ = 1
  /-- Together the bases span everything. -/
  complete : Q₁ * Q₁ᵀ + Q₂ * Q₂ᵀ = 1
  /-- The constraints in the first basis. -/
  factors : Aᵀ = Q₁ * R₁
  /-- The triangular factor is upper triangular. -/
  triangular : R₁.IsUpperTriangular

/-- The first columns and those beyond them are all the columns. -/
def columnAt (h : m ≤ n) : Fin m ⊕ Fin (n - m) ≃ Fin n :=
  finSumFinEquiv.trans (finCongr (by omega))

@[simp] theorem columnAt_inl (h : m ≤ n) (j : Fin m) : columnAt h (.inl j) = Fin.castLE h j :=
  Fin.ext rfl

@[simp] theorem columnAt_inr (h : m ≤ n) (j : Fin (n - m)) : columnAt h (.inr j) = beyond h j :=
  Fin.ext rfl

/-- **The factors that the null-space method reads off** are a splitting, whatever routine answers them. -/
theorem exists_splitting {qr : Mat.Factoring Exact} (hqr : qr.IsOrthogonal) (h : m ≤ n)
    (A : Matrix (Fin m) (Fin n) ℝ) :
    ∃ (Q : Matrix (Fin n) (Fin n) ℝ) (R : Matrix (Fin n) (Fin m) ℝ),
      qr n m (Mat.ofReal Aᵀ) = (Mat.ofReal Q, Mat.ofReal R) ∧
        Splitting A (Q.submatrix id (Fin.castLE h)) (Q.submatrix id (beyond h))
          (R.submatrix (Fin.castLE h) id) := by
  obtain ⟨Q, R, hfactors, hQ, hQR, hR⟩ := hqr Aᵀ
  refine ⟨Q, R, hfactors, ?_⟩
  set Q₁ := Q.submatrix id (Fin.castLE h)
  set Q₂ := Q.submatrix id (beyond h)
  have hcols : Q.submatrix id (columnAt h) = fromCols Q₁ Q₂ := by
    ext i j
    cases j <;> simp [Q₁, Q₂]
  have hblocks : fromBlocks (Q₁ᵀ * Q₁) (Q₁ᵀ * Q₂) (Q₂ᵀ * Q₁) (Q₂ᵀ * Q₂) = fromBlocks 1 0 0 1 := by
    rw [← fromRows_mul_fromCols, ← transpose_fromCols, ← hcols, transpose_submatrix,
      ← submatrix_mul _ _ _ id _ Function.bijective_id, hQ, fromBlocks_one]
    exact submatrix_one_equiv (columnAt h)
  have hcomplete : Q₁ * Q₁ᵀ + Q₂ * Q₂ᵀ = 1 := by
    rw [← fromCols_mul_fromRows, ← transpose_fromCols, ← hcols, transpose_submatrix,
      submatrix_mul_equiv, submatrix_id_id]
    exact mul_eq_one_comm.mp hQ
  obtain ⟨h11, h12, h21, h22⟩ := fromBlocks_inj.mp hblocks
  refine ⟨h11, h12, h21, h22, hcomplete, ?_, ?_⟩
  · -- the rows of `R` beyond the first `m` are zero
    have hrows : R.submatrix (columnAt h) id = fromRows (R.submatrix (Fin.castLE h) id) 0 := by
      ext i j
      cases i with
      | inl i => simp
      | inr i => simpa using hR (beyond h i) j (by simp only [beyond]; omega)
    rw [← hQR, ← submatrix_id_id (Q * R), ← submatrix_mul_equiv Q R id (columnAt h) id, hcols,
      hrows, fromCols_mul_fromRows, Matrix.mul_zero, add_zero]
  · intro i j hij
    exact hR (Fin.castLE h i) j (by simpa using hij)

namespace Splitting

variable {A : Matrix (Fin m) (Fin n) ℝ} {Q₁ : Matrix (Fin n) (Fin m) ℝ}
  {Q₂ : Matrix (Fin n) (Fin (n - m)) ℝ} {R₁ : Matrix (Fin m) (Fin m) ℝ}

theorem constraints (hA : Splitting A Q₁ Q₂ R₁) : A = R₁ᵀ * Q₁ᵀ := by
  rw [← transpose_mul, ← hA.factors, transpose_transpose]

/-- A vector is the sum of its two parts. -/
theorem parts (hA : Splitting A Q₁ Q₂ R₁) (v : Fin n → ℝ) :
    Q₁ *ᵥ (Q₁ᵀ *ᵥ v) + Q₂ *ᵥ (Q₂ᵀ *ᵥ v) = v := by
  rw [mulVec_mulVec, mulVec_mulVec, ← add_mulVec, hA.complete, one_mulVec]

/-- A vector without a part in the row space is its other part. -/
theorem eq_kernel_part (hA : Splitting A Q₁ Q₂ R₁) {v : Fin n → ℝ} (hv : Q₁ᵀ *ᵥ v = 0) :
    Q₂ *ᵥ (Q₂ᵀ *ᵥ v) = v := by
  have hparts := hA.parts v
  rwa [hv, mulVec_zero, zero_add] at hparts

/-- A vector without the other part is its part in the row space. -/
theorem eq_range_part (hA : Splitting A Q₁ Q₂ R₁) {v : Fin n → ℝ} (hv : Q₂ᵀ *ᵥ v = 0) :
    Q₁ *ᵥ (Q₁ᵀ *ᵥ v) = v := by
  have hparts := hA.parts v
  rwa [hv, mulVec_zero, add_zero] at hparts

theorem kernel_transpose_mulVec (hA : Splitting A Q₁ Q₂ R₁) (y : Fin m → ℝ) :
    Q₂ᵀ *ᵥ (Aᵀ *ᵥ y) = 0 := by
  rw [hA.factors, mulVec_mulVec, ← Matrix.mul_assoc, hA.kernel_range, Matrix.zero_mul, zero_mulVec]

theorem mulVec_range (hA : Splitting A Q₁ Q₂ R₁) (w : Fin m → ℝ) :
    A *ᵥ (Q₁ *ᵥ w) = R₁ᵀ *ᵥ w := by
  rw [hA.constraints, mulVec_mulVec, Matrix.mul_assoc, hA.range_range, Matrix.mul_one]

theorem mulVec_kernel (hA : Splitting A Q₁ Q₂ R₁) (v : Fin (n - m) → ℝ) :
    A *ᵥ (Q₂ *ᵥ v) = 0 := by
  rw [hA.constraints, mulVec_mulVec, Matrix.mul_assoc, hA.range_kernel, Matrix.mul_zero,
    zero_mulVec]

end Splitting

namespace System

/-- The curvature seen by the part of the variables that the constraints do not see. -/
noncomputable def reducedCurvature (s : System ℝ n m) (Q₂ : Matrix (Fin n) (Fin (n - m)) ℝ) :
    Matrix (Fin (n - m)) (Fin (n - m)) ℝ :=
  Q₂ᵀ * (s.curvatureMatrix * Q₂)

variable {s : System ℝ n m} {Q₁ : Matrix (Fin n) (Fin m) ℝ}
  {Q₂ : Matrix (Fin n) (Fin (n - m)) ℝ} {R₁ : Matrix (Fin m) (Fin m) ℝ}

theorem reducedCurvature_mulVec (v : Fin (n - m) → ℝ) :
    s.reducedCurvature Q₂ *ᵥ v = Q₂ᵀ *ᵥ (s.curvatureMatrix *ᵥ (Q₂ *ᵥ v)) := by
  rw [reducedCurvature, mulVec_mulVec, mulVec_mulVec, Matrix.mul_assoc]

/-- **The whole matrix is invertible exactly when the triangular factor and the reduced curvature
are.** -/
theorem isUnit_blockMatrix_iff_splitting (hx : ∀ i, s.x i ≠ 0)
    (hA : Splitting s.jacobian.toMatrix Q₁ Q₂ R₁) :
    IsUnit s.blockMatrix ↔ IsUnit R₁ ∧ IsUnit (s.reducedCurvature Q₂) := by
  set G := s.curvatureMatrix
  set A := s.jacobian.toMatrix
  rw [isUnit_blockMatrix_iff hx]
  constructor
  · intro h
    have hR : IsUnit R₁ := by
      rw [isUnit_iff_forall_mulVec]
      intro w hw
      refine (h 0 w ?_ (mulVec_zero A)).2
      rw [mulVec_zero, hA.factors, ← mulVec_mulVec, hw, mulVec_zero]
    refine ⟨hR, ?_⟩
    rw [isUnit_iff_forall_mulVec]
    intro v hv
    -- the image of `Q₂ v` has no part outside the row space, hence is some `Aᵀ y`
    rw [reducedCurvature_mulVec] at hv
    have himage : G *ᵥ (Q₂ *ᵥ v) = Aᵀ *ᵥ (R₁⁻¹ *ᵥ (Q₁ᵀ *ᵥ (G *ᵥ (Q₂ *ᵥ v)))) := by
      have hinv := mul_nonsing_inv R₁ ((isUnit_iff_isUnit_det R₁).mp hR)
      rw [hA.factors, ← mulVec_mulVec, mulVec_mulVec _ R₁, hinv, one_mulVec, hA.eq_range_part hv]
    have hzero := (h _ _ himage (hA.mulVec_kernel v)).1
    calc v = (Q₂ᵀ * Q₂) *ᵥ v := by rw [hA.kernel_kernel, one_mulVec]
      _ = 0 := by rw [← mulVec_mulVec, hzero, mulVec_zero]
  · rintro ⟨hR, hB⟩ dx dy hG hAdx
    have hRt : IsUnit R₁ᵀ := (isUnit_transpose R₁).mpr hR
    have hrange : Q₁ᵀ *ᵥ dx = 0 := by
      refine isUnit_iff_forall_mulVec.mp hRt _ ?_
      rw [mulVec_mulVec, ← hA.constraints, hAdx]
    have hdx : dx = 0 := by
      rw [← hA.eq_kernel_part hrange]
      have hfree : s.reducedCurvature Q₂ *ᵥ (Q₂ᵀ *ᵥ dx) = 0 := by
        rw [reducedCurvature_mulVec, hA.eq_kernel_part hrange, hG, hA.kernel_transpose_mulVec]
      rw [isUnit_iff_forall_mulVec.mp hB _ hfree, mulVec_zero]
    refine ⟨hdx, isUnit_iff_forall_mulVec.mp hR _ ?_⟩
    calc R₁ *ᵥ dy = Q₁ᵀ *ᵥ (Aᵀ *ᵥ dy) := by
          rw [hA.factors, mulVec_mulVec, ← Matrix.mul_assoc, hA.range_range, Matrix.one_mul]
      _ = 0 := by rw [← hG, hdx, mulVec_zero, mulVec_zero]

/-- With more constraints than variables some combination of the constraints is zero, so the whole
matrix is not invertible. -/
theorem not_isUnit_of_lt (hx : ∀ i, s.x i ≠ 0) (h : n < m) : ¬IsUnit s.blockMatrix := by
  intro hs
  have hker : LinearMap.ker s.jacobian.toMatrixᵀ.mulVecLin ≠ ⊥ :=
    LinearMap.ker_ne_bot_of_finrank_lt (by simpa using h)
  obtain ⟨y, hy, hne⟩ := Submodule.exists_mem_ne_zero_of_ne_bot hker
  rw [LinearMap.mem_ker, mulVecLin_apply] at hy
  exact hne ((isUnit_blockMatrix_iff hx).mp hs 0 y (by rw [mulVec_zero, hy]) (mulVec_zero _)).2

/-- **The two parts put together solve the condensed equations.** -/
theorem condensed_of_splitting (hA : Splitting s.jacobian.toMatrix Q₁ Q₂ R₁) (hR : IsUnit R₁)
    (hB : IsUnit (s.reducedCurvature Q₂)) (c : Fin n → ℝ) (b : Fin m → ℝ) {fixed dx : Fin n → ℝ}
    (hfixed : fixed = Q₁ *ᵥ (R₁ᵀ⁻¹ *ᵥ b))
    (hdx : dx = fixed +
      Q₂ *ᵥ ((s.reducedCurvature Q₂)⁻¹ *ᵥ (Q₂ᵀ *ᵥ (c - s.curvatureMatrix *ᵥ fixed)))) :
    s.curvatureMatrix *ᵥ dx -
        s.jacobian.toMatrixᵀ *ᵥ (R₁⁻¹ *ᵥ (Q₁ᵀ *ᵥ (s.curvatureMatrix *ᵥ dx - c))) = c ∧
      s.jacobian.toMatrix *ᵥ dx = b := by
  set G := s.curvatureMatrix
  set A := s.jacobian.toMatrix
  set B := s.reducedCurvature Q₂
  have hRt : IsUnit R₁ᵀ := (isUnit_transpose R₁).mpr hR
  have hRinv := mul_nonsing_inv R₁ ((isUnit_iff_isUnit_det R₁).mp hR)
  have hRtinv := mul_nonsing_inv R₁ᵀ ((isUnit_iff_isUnit_det R₁ᵀ).mp hRt)
  have hBinv := mul_nonsing_inv B ((isUnit_iff_isUnit_det B).mp hB)
  -- the free part was chosen so that the remaining stationarity residual lies in the row space
  have hfree : Q₂ᵀ *ᵥ (G *ᵥ dx - c) = 0 := by
    have hreduced : Q₂ᵀ *ᵥ (G *ᵥ (Q₂ *ᵥ (B⁻¹ *ᵥ (Q₂ᵀ *ᵥ (c - G *ᵥ fixed))))) =
        Q₂ᵀ *ᵥ (c - G *ᵥ fixed) := by
      rw [← reducedCurvature_mulVec, mulVec_mulVec, hBinv, one_mulVec]
    rw [hdx, mulVec_add, mulVec_sub, mulVec_add, hreduced, mulVec_sub]
    abel
  constructor
  · have hrange : Aᵀ *ᵥ (R₁⁻¹ *ᵥ (Q₁ᵀ *ᵥ (G *ᵥ dx - c))) = G *ᵥ dx - c := by
      rw [hA.factors, ← mulVec_mulVec, mulVec_mulVec _ R₁, hRinv, one_mulVec,
        hA.eq_range_part hfree]
    rw [hrange, sub_sub_cancel]
  · rw [hdx, mulVec_add, hA.mulVec_kernel, add_zero, hfixed, hA.mulVec_range, mulVec_mulVec, hRtinv,
      one_mulVec]

end System

end GibbsNewton.Kkt
