import GibbsNewton.Kkt.System
import GibbsNewton.Proofs.Linear.Elimination
import Mathlib.Data.Matrix.ColumnRowPartitioned

/-!
# The Newton equations over the reals

A Newton system whose data are real numbers, its equations, and the two ways in which the
factorisations look at it.  The whole system is one square matrix of `n + m + n` rows.  When no
variable is zero, `dz` can be eliminated, and what remains is a system in `dx` and `dy` alone, with
the curvature `G = H + diag (z / x)` in place of `H`:

    G dx - Aᵀ dy = rx + rz / x
    A dx         = ry

## Main definitions

* `Kkt.System.exact`, `Kkt.Rhs.exact`, `Kkt.Direction.exact` — real data read as exact values.
* `Kkt.System.Solves` — a direction solves the Newton equations for a right-hand side.
* `Kkt.System.blockMatrix`, `Kkt.System.curvatureMatrix` — the matrices of the two views.

## Main results

* `Kkt.System.solves_iff_condensed` — the equations with `dz` eliminated.
* `Kkt.System.solves_iff_blockMatrix` — the equations as one matrix equation.
* `Kkt.System.isUnit_blockMatrix_iff` — when the whole matrix is invertible, in terms of the
  condensed equations.
* `Kkt.System.solves_unique` — an invertible system has at most one solution.
* `Kkt.System.Solves.eq_zero_iff` — it is zero exactly for a right-hand side of zero.
-/

namespace GibbsNewton

open Matrix

variable {n m : ℕ}

@[simp] theorem Vec.get_of {α : Type} (f : Fin n → α) : (Vec.of f).get = f :=
  funext fun i => of_apply f i

/-! ### Real data -/

namespace Hessian

/-- Real second derivatives read as exact values, in the same form. -/
def exact : Hessian ℝ n → Hessian Exact n
  | diagonal d => .diagonal (Vec.ofReal ⇑d)
  | dense M => .dense (Mat.ofReal M.toMatrix)

/-- The full matrix of real second derivatives. -/
def matrix : Hessian ℝ n → Matrix (Fin n) (Fin n) ℝ
  | diagonal d => Matrix.diagonal ⇑d
  | dense M => M.toMatrix

@[simp] theorem toMat_exact (H : Hessian ℝ n) : H.exact.toMat = Mat.ofReal H.matrix := by
  cases H with
  | diagonal d => exact Mat.diagonal_ofReal ⇑d
  | dense M => rfl

end Hessian

namespace Kkt

/-- A real right-hand side read as exact values. -/
def Rhs.exact (r : Rhs ℝ n m) : Rhs Exact n m where
  rx := Vec.ofReal ⇑r.rx
  ry := Vec.ofReal ⇑r.ry
  rz := Vec.ofReal ⇑r.rz

/-- A real direction read as exact values. -/
def Direction.exact (d : Direction ℝ n m) : Direction Exact n m where
  dx := Vec.ofReal ⇑d.dx
  dy := Vec.ofReal ⇑d.dy
  dz := Vec.ofReal ⇑d.dz

/-- Directions are equal when their blocks are, entry by entry. -/
theorem Direction.ext_get {α : Type} {d e : Direction α n m} (hx : d.dx.get = e.dx.get)
    (hy : d.dy.get = e.dy.get) (hz : d.dz.get = e.dz.get) : d = e := by
  obtain ⟨dx, dy, dz⟩ := d
  obtain ⟨ex, ey, ez⟩ := e
  congr 1
  · exact Vec.ext (congrFun hx)
  · exact Vec.ext (congrFun hy)
  · exact Vec.ext (congrFun hz)

namespace System

/-- A real system read as exact values. -/
def exact (s : System ℝ n m) : System Exact n m where
  hessian := s.hessian.exact
  jacobian := Mat.ofReal s.jacobian.toMatrix
  x := Vec.ofReal ⇑s.x
  z := Vec.ofReal ⇑s.z

/-- The second derivatives with the bounds taken in. -/
noncomputable def curvatureMatrix (s : System ℝ n m) : Matrix (Fin n) (Fin n) ℝ :=
  s.hessian.matrix + Matrix.diagonal fun i => s.z i / s.x i

/-- The stationarity block of a right-hand side after `dz` has been eliminated. -/
noncomputable def condensed (s : System ℝ n m) (r : Rhs ℝ n m) (i : Fin n) : ℝ :=
  r.rx i + r.rz i / s.x i

/-- The change of the bound multipliers that goes with a change of the variables. -/
noncomputable def boundStep (s : System ℝ n m) (r : Rhs ℝ n m) (dx : Fin n → ℝ) (i : Fin n) : ℝ :=
  (r.rz i - s.z i * dx i) / s.x i

theorem curvature_exact {s : System ℝ n m} (hx : ∀ i, s.x i ≠ 0) :
    s.exact.curvature = Mat.ofReal s.curvatureMatrix := by
  have hratio : (Vec.of fun i => s.exact.z i / s.exact.x i) =
      Vec.ofReal fun i => s.z i / s.x i := by
    apply Vec.ext
    intro i
    simp [exact, Exact.div_coe _ (hx i)]
  rw [curvature, hratio, exact, Hessian.toMat_exact, Mat.diagonal_ofReal, Mat.add_ofReal,
    curvatureMatrix]

theorem condense_exact {s : System ℝ n m} (hx : ∀ i, s.x i ≠ 0) (r : Rhs ℝ n m) :
    s.exact.condense r.exact = Vec.ofReal (s.condensed r) := by
  apply Vec.ext
  intro i
  simp [condense, exact, Rhs.exact, Exact.div_coe _ (hx i), condensed]

theorem boundChange_exact {s : System ℝ n m} (hx : ∀ i, s.x i ≠ 0) (r : Rhs ℝ n m)
    (dx : Fin n → ℝ) :
    s.exact.boundChange r.exact (Vec.ofReal dx) = Vec.ofReal (s.boundStep r dx) := by
  apply Vec.ext
  intro i
  simp [boundChange, exact, Rhs.exact, Exact.div_coe _ (hx i), boundStep]

/-! ### The equations -/

/-- A direction solves the Newton equations of a system for a right-hand side. -/
structure Solves (s : System ℝ n m) (d : Direction ℝ n m) (r : Rhs ℝ n m) : Prop where
  /-- `H dx - Aᵀ dy - dz = rx`. -/
  stationarity :
    s.hessian.matrix *ᵥ ⇑d.dx - s.jacobian.toMatrixᵀ *ᵥ ⇑d.dy - ⇑d.dz = ⇑r.rx
  /-- `A dx = ry`. -/
  feasibility : s.jacobian.toMatrix *ᵥ ⇑d.dx = ⇑r.ry
  /-- `z ∘ dx + x ∘ dz = rz`. -/
  centrality : ∀ i, s.z i * d.dx i + s.x i * d.dz i = r.rz i

/-- **The equations with `dz` eliminated.** -/
theorem solves_iff_condensed {s : System ℝ n m} (hx : ∀ i, s.x i ≠ 0) {d : Direction ℝ n m}
    {r : Rhs ℝ n m} :
    s.Solves d r ↔
      s.curvatureMatrix *ᵥ ⇑d.dx - s.jacobian.toMatrixᵀ *ᵥ ⇑d.dy = s.condensed r ∧
        s.jacobian.toMatrix *ᵥ ⇑d.dx = ⇑r.ry ∧ ⇑d.dz = s.boundStep r ⇑d.dx := by
  have hcurvature : ∀ i, (s.curvatureMatrix *ᵥ ⇑d.dx) i =
      (s.hessian.matrix *ᵥ ⇑d.dx) i + s.z i / s.x i * d.dx i := by
    intro i
    rw [curvatureMatrix, add_mulVec, Pi.add_apply, mulVec_diagonal]
  have hcentral : ∀ i, s.z i * d.dx i + s.x i * d.dz i = r.rz i ↔
      d.dz i = s.boundStep r ⇑d.dx i := by
    intro i
    rw [boundStep, eq_div_iff (hx i)]
    constructor <;> intro h <;> linarith
  -- once `dz` is known, the two stationarity equations say the same
  have hstationary : (∀ i, d.dz i = s.boundStep r ⇑d.dx i) →
      (s.hessian.matrix *ᵥ ⇑d.dx - s.jacobian.toMatrixᵀ *ᵥ ⇑d.dy - ⇑d.dz = ⇑r.rx ↔
        s.curvatureMatrix *ᵥ ⇑d.dx - s.jacobian.toMatrixᵀ *ᵥ ⇑d.dy = s.condensed r) := by
    intro hz
    rw [funext_iff, funext_iff]
    apply forall_congr'
    intro i
    simp only [Pi.sub_apply]
    have hbound : s.boundStep r ⇑d.dx i = r.rz i / s.x i - s.z i / s.x i * d.dx i := by
      rw [boundStep, sub_div, mul_div_right_comm]
    rw [hz i, hcurvature i, condensed, hbound]
    constructor <;> intro h <;> linarith
  constructor
  · rintro ⟨hs, hf, hc⟩
    have hz := fun i => (hcentral i).mp (hc i)
    exact ⟨(hstationary hz).mp hs, hf, funext hz⟩
  · rintro ⟨hs, hf, hz⟩
    have hz' := congrFun hz
    exact ⟨(hstationary hz').mpr hs, hf, fun i => (hcentral i).mpr (hz' i)⟩

/-! ### The whole matrix -/

/-- The index of an unknown of the whole system: a variable, a constraint or a bound. -/
abbrev Unknown (n m : ℕ) := (Fin n ⊕ Fin m) ⊕ Fin n

/-- The matrix of the whole system. -/
def blockMatrix (s : System ℝ n m) : Matrix (Unknown n m) (Unknown n m) ℝ :=
  fromBlocks (fromBlocks s.hessian.matrix (-s.jacobian.toMatrixᵀ) s.jacobian.toMatrix 0)
    (fromRows (-1) 0) (fromCols (Matrix.diagonal ⇑s.z) 0) (Matrix.diagonal ⇑s.x)

/-- The unknowns in the order in which they are stacked. -/
def unknownAt : Fin (n + m + n) ≃ Unknown n m :=
  finSumFinEquiv.symm.trans (Equiv.sumCongr finSumFinEquiv.symm (Equiv.refl _))

/-- A direction as one column. -/
def column (dx : Fin n → ℝ) (dy : Fin m → ℝ) (dz : Fin n → ℝ) : Unknown n m → ℝ :=
  Sum.elim (Sum.elim dx dy) dz

/-- The direction that a column stands for. -/
def ofColumn (v : Unknown n m → ℝ) : Direction ℝ n m where
  dx := Vec.of fun i => v (.inl (.inl i))
  dy := Vec.of fun i => v (.inl (.inr i))
  dz := Vec.of fun i => v (.inr i)

theorem column_ofColumn (v : Unknown n m → ℝ) :
    column ⇑(ofColumn v).dx ⇑(ofColumn v).dy ⇑(ofColumn v).dz = v := by
  funext u
  rcases u with (i | i) | i <;> simp [column, ofColumn]

theorem blockMatrix_mulVec (s : System ℝ n m) (dx : Fin n → ℝ) (dy : Fin m → ℝ) (dz : Fin n → ℝ) :
    s.blockMatrix *ᵥ column dx dy dz =
      column (s.hessian.matrix *ᵥ dx - s.jacobian.toMatrixᵀ *ᵥ dy - dz)
        (s.jacobian.toMatrix *ᵥ dx) (fun i => s.z i * dx i + s.x i * dz i) := by
  funext u
  rcases u with (i | i) | i
  · simp [blockMatrix, column, fromBlocks_mulVec, neg_mulVec, sub_eq_add_neg]
  · simp [blockMatrix, column, fromBlocks_mulVec]
  · simp [blockMatrix, column, fromBlocks_mulVec, mulVec_diagonal]

/-- **The equations as one matrix equation.** -/
theorem solves_iff_blockMatrix {s : System ℝ n m} {d : Direction ℝ n m} {r : Rhs ℝ n m} :
    s.Solves d r ↔ s.blockMatrix *ᵥ column ⇑d.dx ⇑d.dy ⇑d.dz = column ⇑r.rx ⇑r.ry ⇑r.rz := by
  rw [blockMatrix_mulVec]
  constructor
  · rintro ⟨hs, hf, hc⟩
    rw [hs, hf, funext hc]
  · intro h
    exact ⟨funext fun i => congrFun h (.inl (.inl i)), funext fun i => congrFun h (.inl (.inr i)),
      fun i => congrFun h (.inr i)⟩

/-- An invertible system has at most one solution. -/
theorem solves_unique {s : System ℝ n m} (hs : IsUnit s.blockMatrix) {d e : Direction ℝ n m}
    {r : Rhs ℝ n m} (hd : s.Solves d r) (he : s.Solves e r) : d = e := by
  have hcolumn : column ⇑d.dx ⇑d.dy ⇑d.dz = column ⇑e.dx ⇑e.dy ⇑e.dz := by
    rw [eq_inv_mulVec hs (solves_iff_blockMatrix.mp hd),
      eq_inv_mulVec hs (solves_iff_blockMatrix.mp he)]
  exact Direction.ext_get (funext fun i => congrFun hcolumn (.inl (.inl i)))
    (funext fun i => congrFun hcolumn (.inl (.inr i)))
    (funext fun i => congrFun hcolumn (.inr i))

/-- The solution of an invertible system is zero exactly when the right-hand side is. -/
theorem Solves.eq_zero_iff {s : System ℝ n m} {d : Direction ℝ n m} {r : Rhs ℝ n m}
    (h : s.Solves d r) (hs : IsUnit s.blockMatrix) :
    (⇑d.dx = 0 ∧ ⇑d.dy = 0 ∧ ⇑d.dz = 0) ↔ ⇑r.rx = 0 ∧ ⇑r.ry = 0 ∧ ⇑r.rz = 0 := by
  constructor
  · rintro ⟨hx, hy, hz⟩
    refine ⟨?_, ?_, funext fun i => ?_⟩
    · rw [← h.stationarity, hx, hy, hz, mulVec_zero, mulVec_zero, sub_zero, sub_zero]
    · rw [← h.feasibility, hx, mulVec_zero]
    · rw [← h.centrality, hx, hz, Pi.zero_apply, mul_zero, mul_zero, add_zero]
  · rintro ⟨hx, hy, hz⟩
    have hzero : s.Solves ⟨Vec.of 0, Vec.of 0, Vec.of 0⟩ r := by
      constructor
      · simp [hx]
      · simp [hy]
      · simp [hz]
    obtain rfl := solves_unique hs h hzero
    simp

/-- **When the whole matrix is invertible**: the condensed equations with zero on the right have no
solution but zero. -/
theorem isUnit_blockMatrix_iff {s : System ℝ n m} (hx : ∀ i, s.x i ≠ 0) :
    IsUnit s.blockMatrix ↔
      ∀ (dx : Fin n → ℝ) (dy : Fin m → ℝ),
        s.curvatureMatrix *ᵥ dx = s.jacobian.toMatrixᵀ *ᵥ dy → s.jacobian.toMatrix *ᵥ dx = 0 →
          dx = 0 ∧ dy = 0 := by
  have hcondensed : s.condensed ⟨Vec.of 0, Vec.of 0, Vec.of 0⟩ = 0 := by
    funext i; simp [condensed]
  rw [isUnit_iff_forall_mulVec]
  constructor
  · intro h dx dy hG hA
    have hsolves : s.Solves
        ⟨Vec.of dx, Vec.of dy, Vec.of (s.boundStep ⟨Vec.of 0, Vec.of 0, Vec.of 0⟩ dx)⟩
        ⟨Vec.of 0, Vec.of 0, Vec.of 0⟩ := by
      rw [solves_iff_condensed hx, hcondensed]
      simpa [sub_eq_zero] using And.intro hG hA
    have hzero := h _ (by
      rw [solves_iff_blockMatrix.mp hsolves]
      funext u
      rcases u with (i | i) | i <;> simp [column])
    exact ⟨funext fun i => by simpa [column] using congrFun hzero (.inl (.inl i)),
      funext fun i => by simpa [column] using congrFun hzero (.inl (.inr i))⟩
  · intro h v hv
    obtain ⟨dx, dy, dz, rfl⟩ : ∃ dx dy dz, v = column dx dy dz :=
      ⟨_, _, _, (column_ofColumn v).symm⟩
    have hsolves : s.Solves ⟨Vec.of dx, Vec.of dy, Vec.of dz⟩
        ⟨Vec.of 0, Vec.of 0, Vec.of 0⟩ := by
      rw [solves_iff_blockMatrix]
      simp only [Vec.get_of]
      rw [hv]
      funext u
      rcases u with (i | i) | i <;> simp [column]
    rw [solves_iff_condensed hx, hcondensed] at hsolves
    simp only [Vec.get_of, sub_eq_zero] at hsolves
    obtain ⟨hG, hA, hz⟩ := hsolves
    obtain ⟨rfl, rfl⟩ := h dx dy hG hA
    have hdz : dz = 0 := by
      rw [hz]
      funext i
      simp [boundStep]
    rw [hdz]
    funext u
    rcases u with (i | i) | i <;> rfl

end System

end Kkt

end GibbsNewton
