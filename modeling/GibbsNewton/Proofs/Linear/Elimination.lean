import GibbsNewton.Linear.LU
import GibbsNewton.Proofs.Linear.Real
import Mathlib.LinearAlgebra.Matrix.NonsingularInverse

/-!
# Elimination in exact arithmetic

What Gaussian elimination with row exchanges does to a real matrix.  One step of it splits the
product with the exchanged matrix into its first entry and a product with the remainder
(`LU.mulVec_cons_eq`); by recursion on the size, the factors are usable exactly when the matrix
is invertible, and solving with them then multiplies by the inverse.  The choice of the largest
pivot matters for one direction alone: a zero pivot means that the whole column is zero.

## Main definitions

* `LU.pivoted`, `LU.multipliers`, `LU.remainder` — one step of the elimination of a real matrix.

## Main results

* `LU.usable_factor_iff` — usable factors are those of an invertible matrix.
* `LU.solve_factor`, `LU.solveColumns_factor` — solving multiplies by the inverse.
* `LU.isFinite_of_usable` — usable factors are those of a finite matrix.
-/

namespace GibbsNewton

open Matrix

variable {n k : ℕ}

/-! ### Invertible matrices -/

/-- A square matrix is invertible when it sends no vector but zero to zero. -/
theorem isUnit_iff_forall_mulVec {ι : Type*} [Fintype ι] [DecidableEq ι] {A : Matrix ι ι ℝ} :
    IsUnit A ↔ ∀ v, A *ᵥ v = 0 → v = 0 := by
  rw [← mulVec_injective_iff_isUnit]
  constructor
  · intro h v hv
    exact h (by simpa using hv)
  · intro h v w hvw
    have hsub : A *ᵥ (v - w) = 0 := by rw [mulVec_sub, sub_eq_zero]; exact hvw
    exact sub_eq_zero.mp (h _ hsub)

/-- The one solution of an invertible system. -/
theorem eq_inv_mulVec {ι : Type*} [Fintype ι] [DecidableEq ι] {A : Matrix ι ι ℝ} (hA : IsUnit A)
    {v b : ι → ℝ} (h : A *ᵥ v = b) : v = A⁻¹ *ᵥ b := by
  rw [← h, mulVec_mulVec, nonsing_inv_mul _ ((isUnit_iff_isUnit_det A).mp hA), one_mulVec]

/-! ### One step -/

/-- A scan that keeps the index of the largest value so far ends at the largest of all. -/
private theorem le_foldl_largest {N : ℕ} (a : Fin N → ℝ) :
    ∀ (k : ℕ) (f : Fin k → Fin N) (b : Fin N),
      a b ≤ a (Fin.foldl k (fun best i => if a best < a (f i) then f i else best) b) ∧
        ∀ i, a (f i) ≤ a (Fin.foldl k (fun best i => if a best < a (f i) then f i else best) b) := by
  intro k
  induction k with
  | zero => intro f b; exact ⟨le_rfl, fun i => i.elim0⟩
  | succ k ih =>
    intro f b
    rw [Fin.foldl_succ_last]
    obtain ⟨hb, hf⟩ := ih (fun i => f i.castSucc) b
    set r := Fin.foldl k (fun best i => if a best < a (f i.castSucc) then f i.castSucc else best) b
    -- the last value either replaces the best so far or is not above it
    by_cases hlt : a r < a (f (Fin.last k))
    · rw [if_pos hlt]
      refine ⟨hb.trans hlt.le, fun i => ?_⟩
      cases i using Fin.lastCases with
      | last => exact le_rfl
      | cast i => exact (hf i).trans hlt.le
    · rw [if_neg hlt]
      refine ⟨hb, fun i => ?_⟩
      cases i using Fin.lastCases with
      | last => exact not_lt.mp hlt
      | cast i => exact hf i

/-- The pivot is the largest entry of its column in magnitude. -/
theorem Mat.abs_le_pivotRow (A : Matrix (Fin (n + 1)) (Fin (n + 1)) ℝ) (i : Fin (n + 1)) :
    |A i 0| ≤ |A (Mat.ofReal A).pivotRow 0| := by
  have h := (le_foldl_largest (fun i => |A i 0|) (n + 1) id 0).2 i
  simpa [pivotRow] using h

/-- Exchanging the entries at `0` and `p` is a transposition of the indices. -/
theorem Vec.exchanged_eq_swap (p i : Fin (n + 1)) : exchanged p i = Equiv.swap 0 p i := by
  rw [Equiv.swap_apply_def]
  rfl

namespace LU

/-- A matrix with the pivot row of its elimination moved to the top. -/
noncomputable def pivoted (A : Matrix (Fin (n + 1)) (Fin (n + 1)) ℝ) :
    Matrix (Fin (n + 1)) (Fin (n + 1)) ℝ :=
  A.submatrix (Vec.exchanged (Mat.ofReal A).pivotRow) id

theorem pivoted_eq_submatrix (A : Matrix (Fin (n + 1)) (Fin (n + 1)) ℝ) :
    pivoted A = A.submatrix (Equiv.swap 0 (Mat.ofReal A).pivotRow) (Equiv.refl _) := by
  unfold pivoted
  rw [funext (Vec.exchanged_eq_swap _)]
  rfl

/-- The multiples of the first row that are taken off the rows below. -/
noncomputable def multipliers (B : Matrix (Fin (n + 1)) (Fin (n + 1)) ℝ) (i : Fin n) : ℝ :=
  let pivot := vecHead (vecHead B)
  if pivot = 0 then vecHead (B i.succ) else vecHead (B i.succ) / pivot

theorem multipliers_apply (B : Matrix (Fin (n + 1)) (Fin (n + 1)) ℝ) (i : Fin n) :
    multipliers B i = if B 0 0 = 0 then B i.succ 0 else B i.succ 0 / B 0 0 := rfl

/-- What is left to eliminate. -/
noncomputable def remainder (B : Matrix (Fin (n + 1)) (Fin (n + 1)) ℝ) :
    Matrix (Fin n) (Fin n) ℝ :=
  Matrix.of fun i j => B i.succ j.succ - multipliers B i * vecHead B j.succ

theorem remainder_apply (B : Matrix (Fin (n + 1)) (Fin (n + 1)) ℝ) (i j : Fin n) :
    remainder B i j = B i.succ j.succ - multipliers B i * B 0 j.succ := rfl

/-- Eliminating a real matrix, one step at a time. -/
theorem factor_ofReal (A : Matrix (Fin (n + 1)) (Fin (n + 1)) ℝ) :
    factor (Mat.ofReal A) =
      .step (Mat.ofReal A).pivotRow (pivoted A 0 0 : Exact)
        (Vec.ofReal fun j => pivoted A 0 j.succ) (Vec.ofReal (multipliers (pivoted A)))
        (factor (Mat.ofReal (remainder (pivoted A)))) := by
  have hB : (Mat.ofReal A).exchange (Mat.ofReal A).pivotRow = Mat.ofReal (pivoted A) :=
    Mat.ext_apply fun i j => by simp [pivoted]
  have hlower : (Mat.ofReal (pivoted A)).tail.map
      (fun row => if (Mat.ofReal (pivoted A)).head.head == 0 then row.head
        else row.head / (Mat.ofReal (pivoted A)).head.head) =
      Vec.ofReal (multipliers (pivoted A)) := by
    ext i
    by_cases h : pivoted A 0 0 = 0
    · simp [multipliers_apply, h]
    · simp [multipliers_apply, h, Exact.div_coe]
  rw [factor, hB, hlower]
  congr 1
  · simp
  · apply Vec.ext
    intro j
    simp [vecTail]
  · congr 1
    exact Mat.ext_apply fun i j => by simp [remainder_apply, vecTail]

/-- **One step of the elimination.**  With a nonzero pivot, the product with the exchanged matrix
is its first entry and, below, the product with the remainder and the multiples of that entry. -/
theorem mulVec_cons_eq {B : Matrix (Fin (n + 1)) (Fin (n + 1)) ℝ} (hB : B 0 0 ≠ 0) (t : ℝ)
    (w : Fin n → ℝ) :
    B *ᵥ vecCons t w =
      vecCons (B 0 0 * t + (fun j => B 0 j.succ) ⬝ᵥ w)
        ((remainder B *ᵥ w) +
          (B 0 0 * t + (fun j => B 0 j.succ) ⬝ᵥ w) • multipliers B) := by
  funext i
  cases i using Fin.cases with
  | zero => simp [mulVec, dotProduct, Fin.sum_univ_succ]
  | succ i =>
    have hpivot : multipliers B i * B 0 0 = B i.succ 0 := by
      rw [multipliers_apply, if_neg hB, div_mul_cancel₀ _ hB]
    have hrest : ∑ j, B i.succ j.succ * w j =
        (∑ j, (B i.succ j.succ - multipliers B i * B 0 j.succ) * w j) +
          multipliers B i * ∑ j, B 0 j.succ * w j := by
      rw [Finset.mul_sum, ← Finset.sum_add_distrib]
      exact Finset.sum_congr rfl fun j _ => by ring
    simp only [mulVec, dotProduct, Fin.sum_univ_succ, cons_val_zero, cons_val_succ, Pi.add_apply,
      Pi.smul_apply, smul_eq_mul, remainder_apply]
    rw [hrest, ← hpivot]
    ring

/-! ### Usable factors -/

/-- The exchanged matrix is invertible when the matrix is. -/
theorem isUnit_pivoted {A : Matrix (Fin (n + 1)) (Fin (n + 1)) ℝ} :
    IsUnit (pivoted A) ↔ IsUnit A := by
  rw [pivoted_eq_submatrix]
  exact isUnit_submatrix_equiv _ _

/-- With a zero pivot the whole first column is zero. -/
theorem not_isUnit_of_pivot_eq_zero {A : Matrix (Fin (n + 1)) (Fin (n + 1)) ℝ}
    (h : pivoted A 0 0 = 0) : ¬IsUnit A := by
  have hpivot : A (Mat.ofReal A).pivotRow 0 = 0 := by
    simpa [pivoted_eq_submatrix] using h
  have hcol : ∀ i, A i 0 = 0 := by
    intro i
    have hi := Mat.abs_le_pivotRow A i
    rw [hpivot, abs_zero] at hi
    exact abs_nonpos_iff.mp hi
  intro hA
  have hsingle : A *ᵥ Pi.single 0 1 = 0 := by
    funext i
    simp [hcol i]
  have hzero := isUnit_iff_forall_mulVec.mp hA _ hsingle
  simpa using congrFun hzero 0

/-- With a nonzero pivot, a matrix is invertible when what remains of it is. -/
theorem isUnit_remainder {B : Matrix (Fin (n + 1)) (Fin (n + 1)) ℝ} (hB : B 0 0 ≠ 0) :
    IsUnit (remainder B) ↔ IsUnit B := by
  rw [isUnit_iff_forall_mulVec, isUnit_iff_forall_mulVec]
  constructor
  · intro h v hv
    obtain ⟨t, w, rfl⟩ : ∃ t w, v = vecCons t w := ⟨v 0, vecTail v, (cons_head_tail v).symm⟩
    rw [mulVec_cons_eq hB] at hv
    have hfirst : B 0 0 * t + (fun j => B 0 j.succ) ⬝ᵥ w = 0 := by simpa using congrFun hv 0
    have hrest : remainder B *ᵥ w = 0 := by
      funext i
      simpa [hfirst] using congrFun hv i.succ
    have hw : w = 0 := h w hrest
    have ht : t = 0 := by
      rw [hw, dotProduct_zero, add_zero] at hfirst
      exact (mul_eq_zero.mp hfirst).resolve_left hB
    rw [hw, ht]
    simp
  · intro h w hw
    -- the first unknown is chosen so that the first entry of the product vanishes
    have hfirst : B 0 0 * (-((fun j => B 0 j.succ) ⬝ᵥ w) / B 0 0) +
        (fun j => B 0 j.succ) ⬝ᵥ w = 0 := by
      rw [mul_div_cancel₀ _ hB, neg_add_cancel]
    have hv := h (vecCons (-((fun j => B 0 j.succ) ⬝ᵥ w) / B 0 0) w) (by
      rw [mulVec_cons_eq hB, hfirst, hw]
      simp)
    funext i
    simpa using congrFun hv i.succ

/-- **Usable factors are those of an invertible matrix.** -/
theorem usable_factor_iff {A : Matrix (Fin n) (Fin n) ℝ} :
    (factor (Mat.ofReal A)).usable = true ↔ IsUnit A := by
  induction n with
  | zero => exact iff_of_true rfl (isUnit_of_subsingleton A)
  | succ n ih =>
    rw [factor_ofReal, usable]
    by_cases hpivot : pivoted A 0 0 = 0
    · exact iff_of_false (by simp [hpivot]) (not_isUnit_of_pivot_eq_zero hpivot)
    · rw [← isUnit_pivoted, ← isUnit_remainder hpivot, ← ih]
      simp [hpivot]

/-! ### Solving -/

/-- Solving with the factors of an invertible matrix answers a solution. -/
theorem exists_solve_factor {A : Matrix (Fin n) (Fin n) ℝ} (hA : IsUnit A) (b : Fin n → ℝ) :
    ∃ v, (factor (Mat.ofReal A)).solve (Vec.ofReal b) = Vec.ofReal v ∧ A *ᵥ v = b := by
  induction n with
  | zero => exact ⟨b, rfl, Subsingleton.elim _ _⟩
  | succ n ih =>
    have hpivot : pivoted A 0 0 ≠ 0 := fun h => not_isUnit_of_pivot_eq_zero h hA
    have hrest : IsUnit (remainder (pivoted A)) := (isUnit_remainder hpivot).mpr (isUnit_pivoted.mpr hA)
    set e := Equiv.swap 0 (Mat.ofReal A).pivotRow with he
    obtain ⟨w, hw, hBw⟩ := ih hrest fun i => b (e i.succ) - multipliers (pivoted A) i * b (e 0)
    have hexchange : (Vec.ofReal b).exchange (Mat.ofReal A).pivotRow = Vec.ofReal (b ∘ e) := by
      apply Vec.ext
      intro i
      simp [Vec.exchanged_eq_swap, he]
    set t := (b (e 0) - (fun j => pivoted A 0 j.succ) ⬝ᵥ w) / pivoted A 0 0 with ht
    refine ⟨vecCons t w, ?_, ?_⟩
    · have hbelow : (Vec.of fun i : Fin n => Vec.ofReal (b ∘ e) i.succ -
          Vec.ofReal (multipliers (pivoted A)) i * (Vec.ofReal (b ∘ e)).head) =
          Vec.ofReal fun i => b (e i.succ) - multipliers (pivoted A) i * b (e 0) := by
        apply Vec.ext
        intro i
        simp
      rw [factor_ofReal, solve, hexchange, hbelow, hw]
      simp [Exact.div_coe _ hpivot, ht]
    · -- the exchanged system holds entry by entry, hence so does the system itself
      have hfirst : pivoted A 0 0 * t + (fun j => pivoted A 0 j.succ) ⬝ᵥ w = b (e 0) := by
        rw [ht, mul_div_cancel₀ _ hpivot, sub_add_cancel]
      have hB : pivoted A *ᵥ vecCons t w = b ∘ e := by
        rw [mulVec_cons_eq hpivot, hfirst, hBw]
        funext i
        cases i using Fin.cases with
        | zero => simp
        | succ i => simp; ring
      funext i
      have hi := congrFun hB (e.symm i)
      simpa [pivoted_eq_submatrix, mulVec, dotProduct, ← he] using hi

/-- **Solving with the factors of an invertible matrix multiplies by its inverse.** -/
theorem solve_factor {A : Matrix (Fin n) (Fin n) ℝ} (hA : IsUnit A) (b : Fin n → ℝ) :
    (factor (Mat.ofReal A)).solve (Vec.ofReal b) = Vec.ofReal (A⁻¹ *ᵥ b) := by
  obtain ⟨v, hv, hAv⟩ := exists_solve_factor hA b
  rw [hv, eq_inv_mulVec hA hAv]

theorem solveColumns_factor {A : Matrix (Fin n) (Fin n) ℝ} (hA : IsUnit A)
    (B : Matrix (Fin n) (Fin k) ℝ) :
    (factor (Mat.ofReal A)).solveColumns (Mat.ofReal B) = Mat.ofReal (A⁻¹ * B) := by
  apply Mat.ext_apply
  intro i j
  rw [solveColumns, Mat.transpose_apply, Vec.map_apply, Mat.transpose_ofReal, Mat.ofReal_apply,
    solve_factor hA]
  simp [Matrix.mul_apply, mulVec, dotProduct]

/-! ### Finiteness -/

/-- Usable factors are those of a finite matrix. -/
theorem isFinite_of_usable {A : Mat Exact n n} (h : (factor A).usable = true) :
    A.isFinite = true := by
  induction n with
  | zero => exact Mat.isFinite_iff_forall.mpr fun i => i.elim0
  | succ n ih =>
    rw [factor, usable] at h
    simp only [Bool.and_eq_true] at h
    obtain ⟨⟨⟨⟨hpivot, hne⟩, hupper⟩, hlower⟩, hrest⟩ := h
    set B := A.exchange A.pivotRow with hB
    -- every entry of the exchanged matrix is stored, divided by the pivot, or goes into the rest
    have hcorner : ∀ i j, Scalar.isFinite (B i j) = true := by
      intro i j
      have hup := Vec.isFinite_iff_forall.mp hupper
      have hlow := Vec.isFinite_iff_forall.mp hlower
      have hre := Mat.isFinite_iff_forall.mp (ih hrest)
      cases i using Fin.cases with
      | zero =>
        cases j using Fin.cases with
        | zero => simpa using hpivot
        | succ j => simpa using hup j
      | succ i =>
        cases j using Fin.cases with
        | zero =>
          have hi := hlow i
          rw [Vec.map_apply] at hi
          split at hi
          · simpa using hi
          · rw [Exact.isFinite_div] at hi
            simp only [Bool.and_eq_true] at hi
            simpa using hi.1.1
        | succ j =>
          have hij := hre i j
          rw [Mat.of_apply, Exact.isFinite_sub, Bool.and_eq_true] at hij
          exact hij.1
    apply Mat.isFinite_iff_forall.mpr
    intro i j
    have hi := hcorner (Equiv.swap 0 A.pivotRow i) j
    rwa [hB, Vec.exchange_apply, Vec.exchanged_eq_swap, Equiv.swap_apply_self] at hi

end LU

end GibbsNewton
