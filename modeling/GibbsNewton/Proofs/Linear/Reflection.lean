import GibbsNewton.Linear.QR
import GibbsNewton.Proofs.Linear.Elimination
import Mathlib.LinearAlgebra.Matrix.Block
import Mathlib.LinearAlgebra.Matrix.DotProduct

/-!
# Orthogonal factors in exact arithmetic

What the reflections of `Linear.QR` do to a real matrix, and the two triangular substitutions.  The
reflection chosen for a column is orthogonal and sends the column to a multiple of the first axis,
so the factors built from such reflections are an orthogonal and an upper triangular matrix whose
product is the matrix factored.  No division by zero occurs on the way: the reflected entry has the
sign opposite to the one that it replaces, and its magnitude is the length of the column.

Nothing but this is asked of a routine for the factors: `Factoring.IsOrthogonal` says so of any.

## Main definitions

* `reflection` — the matrix `1 - s u uᵀ`.
* `border` — a matrix with a first row above it and zeros to the left.
* `Mat.Factoring.IsOrthogonal` — a routine answers the factors of every real matrix.

## Main results

* `Reflector.exists_ofColumn` — the reflection chosen for a column.
* `Mat.exists_qr`, `Mat.isOrthogonal_reflecting` — **the factors of a real matrix are orthogonal and
  upper triangular.**
* `Mat.solveUpper_ofReal`, `Mat.solveLower_ofReal` — substitution multiplies by the inverse.
-/

namespace GibbsNewton

open Matrix

variable {m n k : ℕ}

/-! ### Reflections -/

/-- The matrix `1 - s u uᵀ`. -/
noncomputable def reflection (s : ℝ) (u : Fin n → ℝ) : Matrix (Fin n) (Fin n) ℝ :=
  1 - s • vecMulVec u u

theorem transpose_reflection (s : ℝ) (u : Fin n → ℝ) : (reflection s u)ᵀ = reflection s u := by
  rw [reflection, transpose_sub, transpose_one, transpose_smul, transpose_vecMulVec]

/-- A reflection undoes itself when its scale fits the length of its normal vector. -/
theorem reflection_mul_self {s : ℝ} {u : Fin n → ℝ} (h : s * (s * (u ⬝ᵥ u) - 2) = 0) :
    reflection s u * reflection s u = 1 := by
  have hsquare : vecMulVec u u * vecMulVec u u = (u ⬝ᵥ u) • vecMulVec u u := by
    rw [vecMulVec_mul_vecMulVec, vecMulVec_smul]
  have hexpand : reflection s u * reflection s u =
      1 + (s * (s * (u ⬝ᵥ u) - 2)) • vecMulVec u u := by
    simp only [reflection, mul_sub, sub_mul, mul_one, one_mul, smul_mul_smul_comm, hsquare]
    module
  rw [hexpand, h, zero_smul, add_zero]

theorem reflection_mulVec (s : ℝ) (u v : Fin n → ℝ) :
    reflection s u *ᵥ v = v - (s * (u ⬝ᵥ v)) • u := by
  rw [reflection, sub_mulVec, one_mulVec, smul_mulVec, vecMulVec_mulVec, op_smul_eq_smul,
    smul_smul]

namespace Reflector

/-- Reflecting the columns of a real matrix. -/
theorem apply_ofReal (s : ℝ) (v : Fin n → ℝ) (h : Exact)
    (A : Matrix (Fin (n + 1)) (Fin k) ℝ) :
    (⟨s, Vec.ofReal v, h⟩ : Reflector Exact n).apply (Mat.ofReal A) =
      Mat.ofReal (reflection s (vecCons 1 v) * A) := by
  have hnormal : (⟨s, Vec.ofReal v, h⟩ : Reflector Exact n).normal = Vec.ofReal (vecCons 1 v) := by
    simp [normal]
  rw [apply, hnormal]
  generalize (vecCons 1 v : Fin (n + 1) → ℝ) = u
  have hentry : ∀ i j, (reflection s u * A) i j = A i j - s * u i * (Aᵀ *ᵥ u) j := by
    intro i j
    rw [reflection, Matrix.sub_mul, Matrix.one_mul, Matrix.smul_mul, vecMulVec_mul, mulVec_transpose]
    simp [vecMulVec_apply, mul_assoc]
  exact Mat.ext_apply fun i j => by simp [hentry]

/-- **The reflection chosen for a column** undoes itself and sends the column to the first axis. -/
theorem exists_ofColumn (a : Fin (n + 1) → ℝ) :
    ∃ (s : ℝ) (v : Fin n → ℝ) (h : ℝ), ofColumn (Vec.ofReal a) = ⟨s, Vec.ofReal v, (h : Exact)⟩ ∧
      reflection s (vecCons 1 v) * reflection s (vecCons 1 v) = 1 ∧
        reflection s (vecCons 1 v) *ᵥ a = vecCons h 0 := by
  set top := a 0 with htop
  set below := vecTail a with hbelow
  set square := below ⬝ᵥ below with hsquare
  have ha : a = vecCons top below := (cons_head_tail a).symm
  by_cases hzero : square = 0
  · -- the column is on the axis already
    refine ⟨0, below, top, ?_, reflection_mul_self (zero_mul _), ?_⟩
    · simp [ofColumn, ← hbelow, ← hsquare, hzero, ← htop]
    · have hb : below = 0 := dotProduct_self_eq_zero.mp hzero
      rw [reflection_mulVec, zero_mul, zero_smul, sub_zero, ha, hb]
  · have hpos : 0 < square :=
      lt_of_le_of_ne (Finset.sum_nonneg fun i _ => mul_self_nonneg _) (Ne.symm hzero)
    have hlen : 0 < top * top + square := add_pos_of_nonneg_of_pos (mul_self_nonneg _) hpos
    set norm := Real.sqrt (top * top + square) with hnorm
    have hnormpos : 0 < norm := Real.sqrt_pos.mpr hlen
    set head : ℝ := if top < 0 then norm else -norm with hhead
    have hsq : head * head = top * top + square := by
      have hself := Real.mul_self_sqrt hlen.le
      rw [hhead]
      split_ifs <;> linarith
    have hne : head ≠ 0 := by
      rw [hhead]
      split_ifs
      · exact hnormpos.ne'
      · exact (neg_neg_of_pos hnormpos).ne
    -- the signs of the two terms are opposite, so nothing cancels
    have hdiff : top - head ≠ 0 := by
      rw [hhead]
      split_ifs with ht
      · exact (by linarith : top - norm < 0).ne
      · exact (by linarith [not_lt.mp ht] : 0 < top - -norm).ne'
    have hcolumn : (vecCons 1 ((top - head)⁻¹ • below) : Fin (n + 1) → ℝ) ⬝ᵥ
        vecCons 1 ((top - head)⁻¹ • below) = 1 + square / (top - head) ^ 2 := by
      rw [cons_dotProduct_cons, smul_dotProduct, dotProduct_smul, ← hsquare, smul_eq_mul,
        smul_eq_mul]
      field_simp
    have hproduct : (vecCons 1 ((top - head)⁻¹ • below) : Fin (n + 1) → ℝ) ⬝ᵥ a =
        top + square / (top - head) := by
      rw [ha, cons_dotProduct_cons, smul_dotProduct, ← hsquare, smul_eq_mul]
      field_simp
    refine ⟨(head - top) / head, (top - head)⁻¹ • below, head, ?_, reflection_mul_self ?_, ?_⟩
    · have htail : (Vec.ofReal below).map (· / (((top - head : ℝ)) : Exact)) =
          Vec.ofReal ((top - head)⁻¹ • below) := by
        ext i
        rw [Vec.map_apply, Vec.ofReal_apply, Exact.div_coe _ hdiff, Vec.ofReal_apply, Pi.smul_apply,
          smul_eq_mul, div_eq_inv_mul]
      have hcase : (if Scalar.lt (top : Exact) 0 then (norm : Exact) else -(norm : Exact)) =
          (head : Exact) := by
        rw [hhead]
        by_cases ht : top < 0 <;> simp [ht]
      rw [ofColumn]
      simp only [Vec.head_eq, Vec.ofReal_apply, Vec.tail_ofReal, Vec.dot_ofReal, ← htop, ← hbelow,
        ← hsquare, Exact.mul_coe, Exact.add_coe, Exact.sqrt_coe hlen.le, ← hnorm, hcase,
        Exact.sub_coe, htail, Exact.div_coe _ hne]
      simp [hzero]
    · rw [hcolumn]
      have hs : square = head * head - top * top := by linarith
      rw [hs]
      field_simp
      ring
    · rw [reflection_mulVec, hproduct]
      have hs : square = head * head - top * top := by linarith
      have hfactor : (head - top) / head * (top + square / (top - head)) = top - head := by
        rw [hs]
        field_simp
        ring
      rw [hfactor, ha]
      funext i
      cases i using Fin.cases with
      | zero => simp
      | succ i => simp [mul_inv_cancel_left₀ hdiff]

end Reflector

/-! ### Factors -/

/-- A matrix with `row` above it, zeros to the left and `a` in the corner. -/
def border (a : ℝ) (row : Fin k → ℝ) (A : Matrix (Fin n) (Fin k) ℝ) :
    Matrix (Fin (n + 1)) (Fin (k + 1)) ℝ :=
  Matrix.of (vecCons (vecCons a row) fun i => vecCons 0 (A i))

@[simp] theorem border_zero_zero (a : ℝ) (row : Fin k → ℝ) (A : Matrix (Fin n) (Fin k) ℝ) :
    border a row A 0 0 = a := rfl

@[simp] theorem border_zero_succ (a : ℝ) (row : Fin k → ℝ) (A : Matrix (Fin n) (Fin k) ℝ)
    (j : Fin k) : border a row A 0 j.succ = row j := rfl

@[simp] theorem border_succ_zero (a : ℝ) (row : Fin k → ℝ) (A : Matrix (Fin n) (Fin k) ℝ)
    (i : Fin n) : border a row A i.succ 0 = 0 := rfl

@[simp] theorem border_succ_succ (a : ℝ) (row : Fin k → ℝ) (A : Matrix (Fin n) (Fin k) ℝ)
    (i : Fin n) (j : Fin k) : border a row A i.succ j.succ = A i j := rfl

/-- Bordered matrices are told apart by their four blocks. -/
theorem eq_border {a : ℝ} {row : Fin k → ℝ} {A : Matrix (Fin n) (Fin k) ℝ}
    {B : Matrix (Fin (n + 1)) (Fin (k + 1)) ℝ} (ha : B 0 0 = a) (hrow : ∀ j, B 0 j.succ = row j)
    (hzero : ∀ i : Fin n, B i.succ 0 = 0) (hA : ∀ i j, B i.succ j.succ = A i j) : B = border a row A := by
  ext i j
  cases i using Fin.cases with
  | zero =>
    cases j using Fin.cases with
    | zero => exact ha
    | succ j => exact hrow j
  | succ i =>
    cases j using Fin.cases with
    | zero => exact hzero i
    | succ j => exact hA i j

theorem border_one_mul_border (Q : Matrix (Fin n) (Fin n) ℝ) (a : ℝ) (row : Fin k → ℝ)
    (R : Matrix (Fin n) (Fin k) ℝ) : border 1 0 Q * border a row R = border a row (Q * R) :=
  eq_border (by simp [Matrix.mul_apply, Fin.sum_univ_succ])
    (fun j => by simp [Matrix.mul_apply, Fin.sum_univ_succ])
    (fun (i : Fin n) => by simp [Matrix.mul_apply, Fin.sum_univ_succ])
    (fun i j => by simp [Matrix.mul_apply, Fin.sum_univ_succ])

theorem transpose_border_one (Q : Matrix (Fin n) (Fin n) ℝ) :
    (border 1 0 Q)ᵀ = border 1 0 Qᵀ :=
  eq_border rfl (fun _ => rfl) (fun _ => rfl) (fun _ _ => rfl)

theorem border_one_one : border 1 0 (1 : Matrix (Fin n) (Fin n) ℝ) = 1 :=
  (eq_border rfl (fun (j : Fin n) => Matrix.one_apply_ne (Fin.succ_ne_zero j).symm)
    (fun (i : Fin n) => Matrix.one_apply_ne (Fin.succ_ne_zero i))
    (fun i j => by simp [Matrix.one_apply])).symm

namespace Mat

@[simp] theorem bordered_ofReal (a : ℝ) (row : Fin k → ℝ) (A : Matrix (Fin n) (Fin k) ℝ) :
    bordered (a : Exact) (Vec.ofReal row) (Mat.ofReal A) = ofReal (border a row A) := by
  apply ext_apply
  intro i j
  cases i using Fin.cases with
  | zero => cases j using Fin.cases <;> simp [bordered]
  | succ i => cases j using Fin.cases <;> simp [bordered]

@[simp] theorem block_ofReal (A : Matrix (Fin (n + 1)) (Fin (k + 1)) ℝ) :
    (ofReal A).block = ofReal (A.submatrix Fin.succ Fin.succ) :=
  ext_apply fun i j => by simp [block, vecTail]

/-- **The factors of a real matrix** are orthogonal and upper triangular, and their product is the
matrix. -/
theorem exists_qr (A : Matrix (Fin n) (Fin m) ℝ) :
    ∃ Q R, (ofReal A).qr = (ofReal Q, ofReal R) ∧ Qᵀ * Q = 1 ∧ Q * R = A ∧
      ∀ i j, j.val < i.val → R i j = 0 := by
  induction n generalizing m with
  | zero => exact ⟨1, A, by rw [qr, identity_eq], by simp, by simp, fun i => i.elim0⟩
  | succ n ih =>
    cases m with
    | zero => exact ⟨1, A, by rw [qr, identity_eq], by simp, by simp, fun _ j => j.elim0⟩
    | succ m =>
      obtain ⟨s, v, h, hcolumn, hself, hfirst⟩ := Reflector.exists_ofColumn fun i => A i 0
      set H := reflection s (vecCons 1 v) with hH
      -- the reflected matrix is zero below its corner, and the recursion factors the rest of it
      obtain ⟨Q, R, hqr, hQ, hQR, hR⟩ := ih ((H * A).submatrix Fin.succ Fin.succ)
      have hborder : H * A = border h (vecTail ((H * A) 0)) ((H * A).submatrix Fin.succ Fin.succ) :=
        eq_border (congrFun hfirst 0) (fun _ => rfl) (fun i => congrFun hfirst i.succ)
          (fun _ _ => rfl)
      refine ⟨H * border 1 0 Q, border h (vecTail ((H * A) 0)) R, ?_, ?_, ?_, ?_⟩
      · have hmap : (ofReal A).map Vec.head = Vec.ofReal fun i => A i 0 := by
          apply Vec.ext
          intro i
          simp
        rw [qr, hmap, hcolumn]
        simp only [Reflector.apply_ofReal, ← hH, block_ofReal, hqr, Exact.one_eq, Exact.zero_eq,
          Vec.const_coe, Vec.head_eq, ofReal_apply, Vec.tail_ofReal, bordered_ofReal]
        rfl
      · calc (H * border 1 0 Q)ᵀ * (H * border 1 0 Q)
            = (border 1 0 Q)ᵀ * (Hᵀ * H) * border 1 0 Q := by
              rw [transpose_mul, Matrix.mul_assoc, Matrix.mul_assoc, Matrix.mul_assoc]
          _ = 1 := by
              rw [hH, transpose_reflection, hself, Matrix.mul_one, transpose_border_one,
                border_one_mul_border, hQ, border_one_one]
      · rw [Matrix.mul_assoc, border_one_mul_border, hQR, ← hborder, ← Matrix.mul_assoc, hself,
          Matrix.one_mul]
      · intro i j hij
        cases i using Fin.cases with
        | zero => exact absurd hij (Nat.not_lt_zero _)
        | succ i =>
          cases j using Fin.cases with
          | zero => rfl
          | succ j => exact hR i j (by simpa using hij)

/-- A routine answers to every real matrix an orthogonal and an upper triangular one whose product it is. -/
def Factoring.IsOrthogonal (qr : Factoring Exact) : Prop :=
  ∀ {n m : ℕ} (A : Matrix (Fin n) (Fin m) ℝ), ∃ Q R, qr n m (ofReal A) = (ofReal Q, ofReal R) ∧
    Qᵀ * Q = 1 ∧ Q * R = A ∧ ∀ i j, j.val < i.val → R i j = 0

theorem isOrthogonal_reflecting : Factoring.IsOrthogonal reflecting := exists_qr

/-! ### Triangular systems -/

/-- Back substitution with a nonzero diagonal answers a solution. -/
theorem exists_solveUpper {R : Matrix (Fin n) (Fin n) ℝ} (hR : R.IsUpperTriangular)
    (hdiag : ∀ i, R i i ≠ 0) (b : Fin n → ℝ) :
    ∃ v, solveUpper (ofReal R) (Vec.ofReal b) = Vec.ofReal v ∧ R *ᵥ v = b := by
  induction n with
  | zero => exact ⟨b, rfl, Subsingleton.elim _ _⟩
  | succ n ih =>
    obtain ⟨w, hw, hRw⟩ := ih (R := R.submatrix Fin.succ Fin.succ)
      (fun i j hij => hR (Fin.succ_lt_succ_iff.mpr hij)) (fun i => hdiag i.succ) (vecTail b)
    have hne := hdiag 0
    refine ⟨vecCons ((b 0 - vecTail (R 0) ⬝ᵥ w) / R 0 0) w, ?_, ?_⟩
    · rw [solveUpper, block_ofReal, Vec.tail_ofReal, hw]
      simp [Exact.div_coe _ hne]
    · funext i
      cases i using Fin.cases with
      | zero =>
        simp only [Matrix.mulVec, dotProduct, Fin.sum_univ_succ, cons_val_zero, cons_val_succ, vecTail,
          Function.comp_apply]
        rw [mul_div_cancel₀ _ hne, sub_add_cancel]
      | succ i =>
        have hzero : R i.succ 0 = 0 := hR (Fin.succ_pos i)
        have hi := congrFun hRw i
        simp only [Matrix.mulVec, dotProduct, submatrix_apply, vecTail, Function.comp_apply] at hi
        simp only [Matrix.mulVec, dotProduct, Fin.sum_univ_succ, cons_val_zero, cons_val_succ, hzero,
          zero_mul, zero_add, hi]

/-- Forward substitution with a nonzero diagonal answers a solution. -/
theorem exists_solveLower {L : Matrix (Fin n) (Fin n) ℝ} (hL : L.IsLowerTriangular)
    (hdiag : ∀ i, L i i ≠ 0) (b : Fin n → ℝ) :
    ∃ v, solveLower (ofReal L) (Vec.ofReal b) = Vec.ofReal v ∧ L *ᵥ v = b := by
  induction n with
  | zero => exact ⟨b, rfl, Subsingleton.elim _ _⟩
  | succ n ih =>
    have hne := hdiag 0
    set first := b 0 / L 0 0 with hfirst
    obtain ⟨w, hw, hLw⟩ := ih (L := L.submatrix Fin.succ Fin.succ)
      (fun i j hij => hL (by simpa using hij)) (fun i => hdiag i.succ)
      fun i => b i.succ - L i.succ 0 * first
    refine ⟨vecCons first w, ?_, ?_⟩
    · have hbelow : (Vec.of fun i : Fin n => Vec.ofReal b i.succ -
          (ofReal L i.succ).head * (first : Exact)) =
          Vec.ofReal fun i => b i.succ - L i.succ 0 * first := by
        apply Vec.ext
        intro i
        simp
      have hhead : (Vec.ofReal b).head / (ofReal L).head.head = (first : Exact) := by
        simp [Exact.div_coe _ hne, hfirst]
      rw [solveLower, block_ofReal, hhead, hbelow, hw, Vec.cons_ofReal]
    · funext i
      cases i using Fin.cases with
      | zero =>
        have hrow : ∀ j : Fin n, L 0 j.succ = 0 := fun j =>
          hL (OrderDual.toDual_lt_toDual.mpr (Fin.succ_pos j))
        simp [Matrix.mulVec, dotProduct, Fin.sum_univ_succ, hrow, hfirst, mul_div_cancel₀ _ hne]
      | succ i =>
        have hi := congrFun hLw i
        simp only [Matrix.mulVec, dotProduct, submatrix_apply] at hi
        simp only [Matrix.mulVec, dotProduct, Fin.sum_univ_succ, cons_val_zero, cons_val_succ, hi]
        ring

/-- A triangular matrix is invertible when its diagonal has no zero. -/
theorem isUnit_iff_diag_ne_zero {R : Matrix (Fin n) (Fin n) ℝ} (hR : R.IsUpperTriangular) :
    IsUnit R ↔ ∀ i, R i i ≠ 0 := by
  rw [isUnit_iff_isUnit_det, det_of_isUpperTriangular hR, isUnit_iff_ne_zero,
    Finset.prod_ne_zero_iff]
  simp

/-- **Back substitution multiplies by the inverse.** -/
theorem solveUpper_ofReal {R : Matrix (Fin n) (Fin n) ℝ} (hR : R.IsUpperTriangular)
    (hunit : IsUnit R) (b : Fin n → ℝ) :
    solveUpper (ofReal R) (Vec.ofReal b) = Vec.ofReal (R⁻¹ *ᵥ b) := by
  obtain ⟨v, hv, hRv⟩ := exists_solveUpper hR ((isUnit_iff_diag_ne_zero hR).mp hunit) b
  rw [hv, eq_inv_mulVec hunit hRv]

/-- **Forward substitution multiplies by the inverse.** -/
theorem solveLower_ofReal {R : Matrix (Fin n) (Fin n) ℝ} (hR : R.IsUpperTriangular)
    (hunit : IsUnit R) (b : Fin n → ℝ) :
    solveLower (ofReal Rᵀ) (Vec.ofReal b) = Vec.ofReal (Rᵀ⁻¹ *ᵥ b) := by
  obtain ⟨v, hv, hRv⟩ := exists_solveLower hR.transpose
    ((isUnit_iff_diag_ne_zero hR).mp hunit) b
  rw [hv, eq_inv_mulVec (isUnit_transpose R |>.mpr hunit) hRv]

end Mat

end GibbsNewton
