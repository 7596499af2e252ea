import GibbsNewton.Linear.LeastSquares
import GibbsNewton.Proofs.Linear.Real
import Mathlib.Analysis.InnerProductSpace.PiL2
import Mathlib.LinearAlgebra.Matrix.DotProduct

/-!
# Least squares in exact arithmetic

What projecting out one row after another finds on real data.  After the multiples of the first row
are taken off, the target and the other rows are orthogonal to it, so what a combination of the other
rows leaves of the target is orthogonal to the first row as well; by recursion on the number of rows
the rest that is left in the end is orthogonal to all of them.  These are the normal equations, and by
the theorem of Pythagoras they make the coefficients the best ones, whether the rows are independent
or not.

Dependent rows have several best coefficients, and another routine may find others of them.

## Main definitions

* `realShare a v` — the multiple of `a` nearest to `v`.
* `Mat.LeavesLeast` — a routine finds best coefficients for all real data.

## Main results

* `dotProduct_sub_realShare` — taking it off leaves a vector orthogonal to `a`.
* `Mat.exists_leastSquares` — the coefficients found solve the normal equations.
* `norm_residual_le` — solutions of the normal equations leave the least.
* `Mat.leavesLeast_leastSquares` — **the projections find best coefficients.**
-/

namespace GibbsNewton

open Matrix

variable {m n : ℕ}

/-! ### One projection -/

/-- The multiple of `a` nearest to `v`, zero when `a` is. -/
noncomputable def realShare (a v : Fin n → ℝ) : ℝ := v ⬝ᵥ a / (a ⬝ᵥ a)

theorem Vec.share_ofReal (a v : Fin n → ℝ) :
    (ofReal a).share (ofReal v) = (realShare a v : Exact) := by
  unfold share realShare
  rw [dot_ofReal, dot_ofReal]
  by_cases h : a ⬝ᵥ a = 0
  · simp [h]
  · simp [h, Exact.div_coe]

/-- Taking off the nearest multiple leaves a vector that is orthogonal. -/
theorem dotProduct_sub_realShare (a v : Fin n → ℝ) : a ⬝ᵥ (v + -realShare a v • a) = 0 := by
  rw [dotProduct_add, dotProduct_smul, smul_eq_mul, realShare]
  by_cases h : a ⬝ᵥ a = 0
  · rw [dotProduct_self_eq_zero.mp h, zero_dotProduct, zero_dotProduct, mul_zero, add_zero]
  · rw [neg_mul, div_mul_cancel₀ _ h, dotProduct_comm, add_neg_cancel]

/-! ### The recursion -/

/-- The rows after the first, with the first projected out of them. -/
noncomputable def projectedRows (A : Matrix (Fin (m + 1)) (Fin n) ℝ) : Matrix (Fin m) (Fin n) ℝ :=
  Matrix.of fun i j => A i.succ j + -realShare (vecHead A) (A i.succ) * vecHead A j

theorem projectedRows_apply (A : Matrix (Fin (m + 1)) (Fin n) ℝ) (i : Fin m) :
    projectedRows A i = A i.succ + -realShare (A 0) (A i.succ) • A 0 := rfl

/-- The first row is orthogonal to what a combination of the projected rows is. -/
theorem dotProduct_projectedRows (A : Matrix (Fin (m + 1)) (Fin n) ℝ) (w : Fin m → ℝ) :
    A 0 ⬝ᵥ ((projectedRows A)ᵀ *ᵥ w) = 0 := by
  have hrows : projectedRows A *ᵥ A 0 = 0 := by
    apply funext
    intro i
    change (A i.succ + -realShare (A 0) (A i.succ) • A 0) ⬝ᵥ A 0 = 0
    rw [dotProduct_comm]
    exact dotProduct_sub_realShare (A 0) (A i.succ)
  rw [dotProduct_mulVec, vecMul_transpose, hrows, zero_dotProduct]

/-- The rest that coefficients leave of a target, told from the projections. -/
theorem residual_cons (A : Matrix (Fin (m + 1)) (Fin n) ℝ) (r : Fin n → ℝ) (w : Fin m → ℝ) :
    Aᵀ *ᵥ vecCons (realShare (A 0) r - w ⬝ᵥ fun i => realShare (A 0) (A i.succ)) w - r =
      (projectedRows A)ᵀ *ᵥ w - (r + -realShare (A 0) r • A 0) := by
  apply funext
  intro j
  simp only [Pi.sub_apply, Pi.add_apply, Pi.smul_apply, smul_eq_mul, mulVec, dotProduct,
    transpose_apply, Fin.sum_univ_succ, cons_val_zero, cons_val_succ, projectedRows_apply]
  have hsplit : ∑ i, (A i.succ j + -realShare (A 0) (A i.succ) * A 0 j) * w i =
      ∑ i, A i.succ j * w i - A 0 j * ∑ i, w i * realShare (A 0) (A i.succ) := by
    rw [Finset.mul_sum, ← Finset.sum_sub_distrib]
    apply Finset.sum_congr rfl
    intro i _
    ring
  rw [hsplit]
  ring

/-- **The coefficients found solve the normal equations**: what they leave of the target is orthogonal
to every row.  By induction on the number of rows. -/
theorem Mat.exists_leastSquares (A : Matrix (Fin m) (Fin n) ℝ) (r : Fin n → ℝ) :
    ∃ y, (Mat.ofReal A).leastSquares (Vec.ofReal r) = Vec.ofReal y ∧ A *ᵥ (Aᵀ *ᵥ y - r) = 0 := by
  induction m generalizing r with
  | zero => exact ⟨Fin.elim0, Vec.ext fun i => i.elim0, funext fun i => i.elim0⟩
  | succ m ih =>
    obtain ⟨w, hw, hnormal⟩ := ih (projectedRows A) (r + -realShare (A 0) r • A 0)
    refine ⟨vecCons (realShare (A 0) r - w ⬝ᵥ fun i => realShare (A 0) (A i.succ)) w, ?_, ?_⟩
    · have hothers : (Mat.ofReal A).tail.map
          (fun v => v.move (-(Mat.ofReal A).head.share v) (Mat.ofReal A).head) =
            Mat.ofReal (projectedRows A) := by
        apply Vec.ext
        intro i
        simp [projectedRows_apply, Vec.share_ofReal]
      have hshares : (Mat.ofReal A).tail.map (Mat.ofReal A).head.share =
          Vec.ofReal fun i => realShare (A 0) (A i.succ) := by
        apply Vec.ext
        intro i
        simp [Vec.share_ofReal]
      have htarget : (Vec.ofReal r).move (-(Mat.ofReal A).head.share (Vec.ofReal r))
          (Mat.ofReal A).head = Vec.ofReal (r + -realShare (A 0) r • A 0) := by
        simp [Vec.share_ofReal]
      rw [leastSquares]
      simp only [hothers, hshares, htarget, hw]
      simp [Vec.share_ofReal]
    · rw [residual_cons]
      have hfirst : A 0 ⬝ᵥ ((projectedRows A)ᵀ *ᵥ w - (r + -realShare (A 0) r • A 0)) = 0 := by
        rw [dotProduct_sub, dotProduct_projectedRows, dotProduct_sub_realShare, sub_zero]
      apply funext
      intro i
      cases i using Fin.cases with
      | zero => exact hfirst
      | succ i =>
        -- a later row is its projection and a multiple of the first row
        have hrow := congrFun hnormal i
        change (A i.succ + -realShare (A 0) (A i.succ) • A 0) ⬝ᵥ _ = 0 at hrow
        rw [add_dotProduct, smul_dotProduct, hfirst, smul_zero, add_zero] at hrow
        exact hrow

/-! ### What the normal equations mean -/

/-- **Solutions of the normal equations leave the least.** -/
theorem norm_residual_le {A : Matrix (Fin m) (Fin n) ℝ} {r : Fin n → ℝ} {y : Fin m → ℝ}
    (h : A *ᵥ (Aᵀ *ᵥ y - r) = 0) (w : Fin m → ℝ) :
    ‖WithLp.toLp 2 (Aᵀ *ᵥ y - r)‖ ≤ ‖WithLp.toLp 2 (Aᵀ *ᵥ w - r)‖ := by
  set e := Aᵀ *ᵥ y - r with he
  set d := Aᵀ *ᵥ (w - y) with hd
  have hsum : Aᵀ *ᵥ w - r = d + e := by
    rw [hd, he, mulVec_sub]
    abel
  have horthogonal : d ⬝ᵥ e = 0 := by
    rw [hd, mulVec_transpose, ← dotProduct_mulVec, h, dotProduct_zero]
  have hsquare : ∀ v : Fin n → ℝ, ‖WithLp.toLp 2 v‖ ^ 2 = v ⬝ᵥ v := by
    intro v
    rw [EuclideanSpace.real_norm_sq_eq]
    exact Finset.sum_congr rfl fun i _ => pow_two (v i)
  apply le_of_sq_le_sq _ (norm_nonneg _)
  rw [hsum, hsquare, hsquare, dotProduct_add, add_dotProduct, add_dotProduct, dotProduct_comm e d,
    horthogonal, add_zero, zero_add]
  have hpos : 0 ≤ d ⬝ᵥ d := Finset.sum_nonneg fun i _ => mul_self_nonneg (d i)
  linarith

namespace Mat

/-- A routine finds best coefficients. -/
structure LeavesLeast (solve : (n m : ℕ) → Mat Exact m n → Vec Exact n → Vec Exact m) : Prop where
  /-- It answers to real rows and a real target coefficients that are real, and no others leave less of the
  target. -/
  exists_least : ∀ {n m : ℕ} (A : Matrix (Fin m) (Fin n) ℝ) (r : Fin n → ℝ), ∃ y : Fin m → ℝ,
    solve n m (ofReal A) (Vec.ofReal r) = Vec.ofReal y ∧
      ∀ w, ‖WithLp.toLp 2 (Aᵀ *ᵥ y - r)‖ ≤ ‖WithLp.toLp 2 (Aᵀ *ᵥ w - r)‖

/-- **The projections find best coefficients.** -/
theorem leavesLeast_leastSquares : LeavesLeast fun _ _ => leastSquares where
  exists_least A r := by
    obtain ⟨y, hy, hnormal⟩ := exists_leastSquares A r
    exact ⟨y, hy, norm_residual_le hnormal⟩

end Mat

end GibbsNewton
