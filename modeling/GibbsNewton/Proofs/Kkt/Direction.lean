import GibbsNewton.Kkt.Solver
import GibbsNewton.Proofs.Kkt.Factorization
import GibbsNewton.Proofs.Linear.Finite

/-!
# Newton directions

When a solver finds a direction for a Newton system, and which one.  A direction counts only when it
is finite, and a finite direction vouches for everything that it was computed from: whatever the
method, the system and the right-hand side are then made of real numbers.  The factorisations are
known on real systems, so that in the end all methods are described by one statement: the direction
is the solution of the Newton equations, and it is found when the whole matrix is invertible and, for
the range-space method, the curvature is as well.

## Main definitions

* `Kkt.System.FiniteData` — a system and a right-hand side are made of finite numbers.
* `Kkt.System.Alike`, `Kkt.System.SingularCurvature` — two systems differ at most in the form of their
  second derivatives; the curvature has no inverse.

## Main results

* `Kkt.System.finiteData_of_solve` — **a finite solution comes from finite data**, by every method.
* `Kkt.Solver.direction?_eq_some_iff_solves` — **when a direction is found, and which one**;
  `Kkt.Solver.direction?_eq_some_iff` at positive variables.
* `Kkt.Solver.direction?_eq_of_alike` — **alike systems have the same direction** by all methods.
* `Kkt.Solver.direction?_exact`, `Kkt.Solver.direction?_exact_eq_none` — the same for data known to be
  real.
-/

namespace GibbsNewton

variable {n m : ℕ}

/-! ### Finite data are real data -/

theorem Hessian.exists_exact {H : Hessian Exact n} (h : H.toMat.isFinite = true) :
    ∃ K : Hessian ℝ n, H = K.exact := by
  rw [Mat.isFinite_iff_forall] at h
  cases H with
  | diagonal d =>
    have hd : d.isFinite = true :=
      Vec.isFinite_iff_forall.mpr fun i => by simpa [toMat] using h i i
    obtain ⟨v, rfl⟩ := Vec.isFinite_iff.mp hd
    exact ⟨.diagonal (Vec.of v), by simp [exact]⟩
  | dense M =>
    obtain ⟨B, rfl⟩ := Mat.isFinite_iff.mp (Mat.isFinite_iff_forall.mpr h)
    refine ⟨.dense (Mat.of fun i j => B i j), ?_⟩
    unfold exact
    congr 1
    exact Mat.ext_apply fun i j => by simp

theorem Vec.ofReal_inj {v w : Fin n → ℝ} : Vec.ofReal v = Vec.ofReal w ↔ v = w := by
  constructor
  · intro h
    funext i
    have hi := congrArg (fun u : Vec Exact n => u i) h
    simpa using hi
  · rintro rfl
    rfl

theorem Mat.ofReal_inj {A B : Matrix (Fin m) (Fin n) ℝ} : Mat.ofReal A = Mat.ofReal B ↔ A = B := by
  constructor
  · intro h
    ext i j
    have hij := congrArg (fun M : Mat Exact m n => M i j) h
    simpa using hij
  · rintro rfl
    rfl

theorem Vec.ofReal_get_inj {v w : Vec ℝ n} : Vec.ofReal ⇑v = Vec.ofReal ⇑w ↔ v = w :=
  ofReal_inj.trans ⟨fun h => Vec.ext (congrFun h), fun h => h ▸ rfl⟩

theorem Mat.ofReal_toMatrix_inj {A B : Mat ℝ m n} :
    Mat.ofReal A.toMatrix = Mat.ofReal B.toMatrix ↔ A = B :=
  ofReal_inj.trans ⟨fun h => ext_apply fun i j => congrFun (congrFun h i) j, fun h => h ▸ rfl⟩

theorem Hessian.exact_inj {H K : Hessian ℝ n} : H.exact = K.exact ↔ H = K := by
  constructor
  · intro h
    cases H with
    | diagonal d =>
      cases K with
      | diagonal e => rw [Vec.ofReal_get_inj.mp (Hessian.diagonal.inj h)]
      | dense => cases h
    | dense M =>
      cases K with
      | diagonal => cases h
      | dense N => rw [Mat.ofReal_toMatrix_inj.mp (Hessian.dense.inj h)]
  · rintro rfl
    rfl

theorem Vec.isFinite_of_sub {v w : Vec Exact n} (h : (v.sub w).isFinite = true) :
    v.isFinite = true ∧ w.isFinite = true := by
  simp only [isFinite_iff_forall, sub_apply, Exact.isFinite_sub, Bool.and_eq_true,
    forall_and] at h ⊢
  exact h

theorem Vec.isFinite_of_add {v w : Vec Exact n} (h : (v.add w).isFinite = true) :
    v.isFinite = true ∧ w.isFinite = true := by
  simp only [isFinite_iff_forall, add_apply, Exact.isFinite_add, Bool.and_eq_true,
    forall_and] at h ⊢
  exact h

namespace Kkt

theorem Rhs.exists_exact {r : Rhs Exact n m} (hx : r.rx.isFinite = true)
    (hy : r.ry.isFinite = true) (hz : r.rz.isFinite = true) : ∃ q : Rhs ℝ n m, r = q.exact := by
  obtain ⟨rx, ry, rz⟩ := r
  obtain ⟨u, rfl⟩ := Vec.isFinite_iff.mp hx
  obtain ⟨v, rfl⟩ := Vec.isFinite_iff.mp hy
  obtain ⟨w, rfl⟩ := Vec.isFinite_iff.mp hz
  exact ⟨⟨Vec.of u, Vec.of v, Vec.of w⟩, by simp [Rhs.exact]⟩

namespace System

/-- Every number that a system and a right-hand side are made of is finite. -/
structure FiniteData (s : System Exact n m) (r : Rhs Exact n m) : Prop where
  hessian : s.hessian.toMat.isFinite = true
  jacobian : s.jacobian.isFinite = true
  x : s.x.isFinite = true
  z : s.z.isFinite = true
  rx : r.rx.isFinite = true
  ry : r.ry.isFinite = true
  rz : r.rz.isFinite = true

theorem FiniteData.exists_exact {s : System Exact n m} {r : Rhs Exact n m}
    (h : s.FiniteData r) : ∃ (t : System ℝ n m) (q : Rhs ℝ n m), s = t.exact ∧ r = q.exact := by
  obtain ⟨q, hq⟩ := Rhs.exists_exact h.rx h.ry h.rz
  obtain ⟨K, hK⟩ := Hessian.exists_exact h.hessian
  obtain ⟨A, hA⟩ := Mat.isFinite_iff.mp h.jacobian
  obtain ⟨x, hx⟩ := Vec.isFinite_iff.mp h.x
  obtain ⟨z, hz⟩ := Vec.isFinite_iff.mp h.z
  refine ⟨⟨K, Mat.of fun i j => A i j, Vec.of x, Vec.of z⟩, q, ?_, hq⟩
  obtain ⟨H, J, u, w⟩ := s
  obtain rfl : H = K.exact := hK
  obtain rfl : J = Mat.ofReal A := hA
  obtain rfl : u = Vec.ofReal x := hx
  obtain rfl : w = Vec.ofReal z := hz
  have hJ : (Mat.of fun i j => A i j).toMatrix = A := by
    ext i j
    simp
  simp [exact, hJ]

/-! ### Each method -/

section

variable {s : System Exact n m} {r : Rhs Exact n m}

/-- The bound multipliers' change divides by `x` and multiplies by `z`. -/
theorem isFinite_of_boundChange {dx : Vec Exact n} (h : (s.boundChange r dx).isFinite = true) :
    s.x.isFinite = true ∧ s.z.isFinite = true ∧ r.rz.isFinite = true := by
  simp only [boundChange, Vec.isFinite_iff_forall, Vec.of_apply, Exact.isFinite_div,
    Exact.isFinite_sub, Exact.isFinite_mul, Bool.and_eq_true] at h ⊢
  exact ⟨fun i => (h i).1.2, fun i => (h i).1.1.2.1, fun i => (h i).1.1.1⟩

theorem isFinite_of_condense (h : (s.condense r).isFinite = true) : r.rx.isFinite = true := by
  simp only [condense, Vec.isFinite_iff_forall, Vec.of_apply, Exact.isFinite_add,
    Bool.and_eq_true] at h ⊢
  exact fun i => (h i).1

theorem isFinite_of_curvature (h : s.curvature.isFinite = true) :
    s.hessian.toMat.isFinite = true := by
  simp only [curvature, Mat.isFinite_iff_forall, Mat.add_apply, Exact.isFinite_add,
    Bool.and_eq_true] at h ⊢
  exact fun i j => (h i j).1

/-- The range-space method with a diagonal curvature divides by the entries of the curvature and
multiplies the constraints with themselves. -/
theorem finiteData_of_rangespaceDiagonal {d : Vec Exact n} (hd : s.hessian = .diagonal d)
    {F : Factorization Exact n m} (hF : s.factorRangespaceDiagonal d = some F)
    (h : (F.solve s r).isFinite = true) : s.FiniteData r := by
  unfold factorRangespaceDiagonal at hF
  rw [Option.ite_none_right_eq_some, Bool.and_eq_true] at hF
  obtain ⟨⟨hinverse, hschur⟩, hF⟩ := hF
  obtain rfl := Option.some.inj hF
  simp only [Factorization.solve, Direction.isFinite, Bool.and_eq_true] at h
  obtain ⟨⟨hdx, hdy⟩, hdz⟩ := h
  obtain ⟨hx, hz, hrz⟩ := isFinite_of_boundChange hdz
  have hcondense : (s.condense r).isFinite = true := by
    simp only [Vec.isFinite_iff_forall, Vec.of_apply, Exact.isFinite_mul, Exact.isFinite_add,
      Bool.and_eq_true] at hdx ⊢
    exact fun i => (hdx i).2.1
  have hry := LU.isFinite_of_solve _ hdy
  exact {
    hessian := by
      simp only [Vec.isFinite_iff_forall, Vec.of_apply, Exact.isFinite_div, Exact.isFinite_add,
        Bool.and_eq_true] at hinverse
      rw [Mat.isFinite_iff_forall, hd]
      intro i j
      by_cases hij : i = j
      · simpa [Hessian.toMat, hij] using (hinverse j).1.2.1
      · simp [Hessian.toMat, hij]
    jacobian := by
      have hproduct := Mat.isFinite_mul_iff.mp (LU.isFinite_of_usable hschur)
      rw [Mat.isFinite_iff_forall]
      intro i j
      simpa using (hproduct i i j).2
    x := hx
    z := hz
    rx := isFinite_of_condense hcondense
    ry := (Vec.isFinite_of_sub hry).1
    rz := hrz }

theorem finiteData_of_rangespaceDense {F : Factorization Exact n m}
    (hF : s.factorRangespaceDense = some F) (h : (F.solve s r).isFinite = true) :
    s.FiniteData r := by
  unfold factorRangespaceDense at hF
  rw [Option.ite_none_right_eq_some, Bool.and_eq_true] at hF
  obtain ⟨⟨hcurvature, hschur⟩, hF⟩ := hF
  obtain rfl := Option.some.inj hF
  simp only [Factorization.solve, Direction.isFinite, Bool.and_eq_true] at h
  obtain ⟨⟨hdx, hdy⟩, hdz⟩ := h
  obtain ⟨hx, hz, hrz⟩ := isFinite_of_boundChange hdz
  have hcondense := LU.isFinite_of_solve _ (Vec.isFinite_of_add hdx).1
  have hry := LU.isFinite_of_solve _ hdy
  exact {
    hessian := isFinite_of_curvature (LU.isFinite_of_usable hcurvature)
    jacobian := by
      have hproduct := Mat.isFinite_mul_iff.mp (LU.isFinite_of_usable hschur)
      rw [Mat.isFinite_iff_forall]
      intro i j
      exact (hproduct i i j).1
    x := hx
    z := hz
    rx := isFinite_of_condense hcondense
    ry := (Vec.isFinite_of_sub hry).1
    rz := hrz }

/-- The full-space method stores every number of the system, and stacks those of the right-hand
side. -/
theorem finiteData_of_fullspace {F : Factorization Exact n m} (hF : s.factorFullspace = some F)
    (h : (F.solve s r).isFinite = true) : s.FiniteData r := by
  unfold factorFullspace at hF
  rw [Option.ite_none_right_eq_some] at hF
  obtain ⟨husable, hF⟩ := hF
  obtain rfl := Option.some.inj hF
  have hwhole := Mat.isFinite_iff_forall.mp (LU.isFinite_of_usable husable)
  have hstack : (stack r.rx r.ry r.rz).isFinite = true := by
    apply LU.isFinite_of_solve (LU.factor s.whole)
    simp only [Factorization.solve, unstack, Direction.isFinite, Bool.and_eq_true,
      Vec.isFinite_iff_forall, Vec.of_apply] at h
    obtain ⟨⟨hdx, hdy⟩, hdz⟩ := h
    rw [Vec.isFinite_iff_forall]
    intro i
    cases i using Fin.addCases with
    | left i =>
      cases i using Fin.addCases with
      | left i => exact hdx i
      | right i => exact hdy i
    | right i => exact hdz i
  rw [Vec.isFinite_iff_forall] at hstack
  have hleft := fun i => hstack (Fin.castAdd n i)
  have hright := fun i => hstack (Fin.natAdd (n + m) i)
  exact {
    hessian := by
      rw [Mat.isFinite_iff_forall]
      intro i j
      simpa [whole, stack] using
        hwhole (Fin.castAdd n (Fin.castAdd m i)) (Fin.castAdd n (Fin.castAdd m j))
    jacobian := by
      rw [Mat.isFinite_iff_forall]
      intro i j
      simpa [whole, stack] using
        hwhole (Fin.castAdd n (Fin.natAdd n i)) (Fin.castAdd n (Fin.castAdd m j))
    x := by
      rw [Vec.isFinite_iff_forall]
      intro i
      simpa [whole, stack] using hwhole (Fin.natAdd (n + m) i) (Fin.natAdd (n + m) i)
    z := by
      rw [Vec.isFinite_iff_forall]
      intro i
      simpa [whole, stack] using hwhole (Fin.natAdd (n + m) i) (Fin.castAdd n (Fin.castAdd m i))
    rx := by
      rw [Vec.isFinite_iff_forall]
      intro i
      simpa [stack] using hleft (Fin.castAdd m i)
    ry := by
      rw [Vec.isFinite_iff_forall]
      intro i
      simpa [stack] using hleft (Fin.natAdd n i)
    rz := by
      rw [Vec.isFinite_iff_forall]
      intro i
      simpa [stack] using hright i }

/-- A product of a matrix that has a row with a column is finite only when the column is. -/
theorem isFinite_of_mulVec {k l : ℕ} {A : Mat Exact k l} {v : Vec Exact l} (hk : 0 < k)
    (h : (A.mulVec v).isFinite = true) : v.isFinite = true :=
  (Mat.isFinite_mulVec_iff.mp h ⟨0, hk⟩).2

/-- The null-space method never looks at the curvature itself: it is seen through the reduced one,
or, when the constraints leave no freedom, in the equations for their multipliers. -/
theorem finiteData_of_nullspace {qr : Mat.Factoring Exact} (hqr : qr.Vouches)
    {F : Factorization Exact n m} (hF : s.factorNullspace qr = some F)
    (h : (F.solve s r).isFinite = true) : s.FiniteData r := by
  unfold factorNullspace at hF
  split at hF
  next hmn =>
    rcases hfactors : qr n m s.jacobian.transpose with ⟨Q, R⟩
    rw [hfactors] at hF
    dsimp only at hF
    rw [Option.ite_none_right_eq_some, Bool.and_eq_true, Bool.and_eq_true] at hF
    obtain ⟨⟨⟨hQ, -⟩, hreduced⟩, hF⟩ := hF
    obtain rfl := Option.some.inj hF
    simp only [Factorization.solve, Direction.isFinite, Bool.and_eq_true] at h
    obtain ⟨⟨hdx, hdy⟩, hdz⟩ := h
    obtain ⟨hx, hz, hrz⟩ := isFinite_of_boundChange hdz
    rcases Nat.eq_zero_or_pos n with rfl | hn
    · obtain rfl : m = 0 := by omega
      have hvec : ∀ v : Vec Exact 0, v.isFinite = true :=
        fun v => Vec.isFinite_iff_forall.mpr fun i => i.elim0
      have hmat : ∀ A : Mat Exact 0 0, A.isFinite = true :=
        fun A => Mat.isFinite_iff_forall.mpr fun i => i.elim0
      exact ⟨hmat _, hmat _, hx, hz, hvec _, hvec _, hrz⟩
    obtain ⟨hfixed, hfree⟩ := Vec.isFinite_of_add hdx
    obtain ⟨htriangle, hry⟩ := Mat.isFinite_of_solveLower (isFinite_of_mulVec hn hfixed)
    have hjacobian : s.jacobian.isFinite = true := by
      rw [← Mat.isFinite_transpose]
      refine hqr hmn (by rw [hfactors]; exact hQ) fun j => ?_
      rw [hfactors]
      simpa using Vec.isFinite_iff_forall.mp htriangle j
    have hsplit : s.curvature.isFinite = true ∧ (s.condense r).isFinite = true := by
      rcases Nat.lt_or_ge m n with hlt | hge
      · -- the reduced curvature has a row, and the free part of `dx` was solved for with it
        have hpos : 0 < n - m := by omega
        have hproduct := Mat.isFinite_mul_iff.mp (LU.isFinite_of_usable hreduced)
        have hcolumns := Mat.isFinite_mul_iff.mp
          (Mat.isFinite_iff_forall.mpr fun l j => (hproduct ⟨0, hpos⟩ j l).2)
        have hrhs := Mat.isFinite_transposeMulVec_iff.mp
          (LU.isFinite_of_solve _ (isFinite_of_mulVec hn hfree))
        exact ⟨Mat.isFinite_iff_forall.mpr fun i l => (hcolumns i ⟨0, hpos⟩ l).1,
          (Vec.isFinite_of_sub
            (Vec.isFinite_iff_forall.mpr fun i => (hrhs ⟨0, hpos⟩ i).2)).1⟩
      · -- there are as many constraints as variables, and the multipliers depend on all of it
        have hrhs := Mat.isFinite_transposeMulVec_iff.mp (Mat.isFinite_of_solveUpper hdy)
        have hresidual := Vec.isFinite_of_sub
          (Vec.isFinite_iff_forall.mpr fun i => (hrhs ⟨0, by omega⟩ i).2)
        have hrows := Mat.isFinite_mulVec_iff.mp hresidual.1
        exact ⟨Mat.isFinite_iff_forall_row.mpr fun i => (hrows i).1, hresidual.2⟩
    exact {
      hessian := isFinite_of_curvature hsplit.1
      jacobian := hjacobian
      x := hx
      z := hz
      rx := isFinite_of_condense hsplit.2
      ry := hry
      rz := hrz }
  next => cases hF

/-- **A finite solution comes from finite data**, by every method. -/
theorem finiteData_of_solve {method : Method} {F : Factorization Exact n m}
    (hF : s.factor method = some F) (h : (F.solve s r).isFinite = true) : s.FiniteData r := by
  cases method with
  | rangespace =>
    unfold factor at hF
    cases hH : s.hessian with
    | diagonal d =>
      rw [hH] at hF
      exact finiteData_of_rangespaceDiagonal hH hF h
    | dense M =>
      rw [hH] at hF
      exact finiteData_of_rangespaceDense hF h
  | fullspace => exact finiteData_of_fullspace hF h
  | nullspace => exact finiteData_of_nullspace Mat.vouches_reflecting hF h

end

end System

/-- Real data are known from their exact values. -/
theorem System.exact_inj {t t' : System ℝ n m} : t.exact = t'.exact ↔ t = t' := by
  constructor
  · intro h
    obtain ⟨H, A, x, z⟩ := t
    obtain ⟨H', A', x', z'⟩ := t'
    obtain rfl := Hessian.exact_inj.mp (congrArg hessian h)
    obtain rfl := Mat.ofReal_toMatrix_inj.mp (congrArg jacobian h)
    obtain rfl := Vec.ofReal_get_inj.mp (congrArg System.x h)
    obtain rfl := Vec.ofReal_get_inj.mp (congrArg System.z h)
    rfl
  · rintro rfl
    rfl

theorem Rhs.exact_inj {q q' : Rhs ℝ n m} : q.exact = q'.exact ↔ q = q' := by
  constructor
  · intro h
    obtain ⟨rx, ry, rz⟩ := q
    obtain ⟨rx', ry', rz'⟩ := q'
    obtain rfl := Vec.ofReal_get_inj.mp (congrArg Rhs.rx h)
    obtain rfl := Vec.ofReal_get_inj.mp (congrArg Rhs.ry h)
    obtain rfl := Vec.ofReal_get_inj.mp (congrArg Rhs.rz h)
    rfl
  · rintro rfl
    rfl

/-- Every method but the full-space one divides by the variables, and so none of them is zero where it
finds a finite solution. -/
theorem System.x_ne_zero_of_solve {t : System ℝ n m} {r : Rhs Exact n m} {method : Method}
    {F : Factorization Exact n m} (hF : t.exact.factor method = some F)
    (h : (F.solve t.exact r).isFinite = true) (hmethod : method ≠ .fullspace) (i : Fin n) :
    t.x i ≠ 0 := by
  have hbound : ∀ {dx : Vec Exact n}, (t.exact.boundChange r dx).isFinite = true → t.x i ≠ 0 := by
    intro dx hdx
    have hi := Vec.isFinite_iff_forall.mp hdx i
    simp only [boundChange, Vec.of_apply, Exact.isFinite_div, Bool.and_eq_true] at hi
    simpa [exact] using hi.2
  simp only [Direction.isFinite, Bool.and_eq_true] at h
  cases F with
  | rangespaceDiagonal => exact hbound h.2
  | rangespaceDense => exact hbound h.2
  | nullspace => exact hbound h.2
  | fullspace whole =>
    cases method with
    | fullspace => exact absurd rfl hmethod
    | rangespace =>
      unfold factor at hF
      cases hH : t.exact.hessian <;>
        simp [hH, factorRangespaceDiagonal, factorRangespaceDense] at hF
    | nullspace => simp [factor, factorNullspace] at hF

/-! ### Forms of second derivatives -/

namespace System

theorem x_ne_zero_of_exact {t : System ℝ n m} (hx : ∀ i, 0 < t.exact.x i) (i : Fin n) :
    t.x i ≠ 0 := by
  have hi : 0 < t.x i := by simpa [exact] using hx i
  exact hi.ne'

/-- The curvature is a real matrix that is not invertible. -/
def SingularCurvature (s : System Exact n m) : Prop :=
  ∃ G : Matrix (Fin n) (Fin n) ℝ, s.curvature = Mat.ofReal G ∧ ¬IsUnit G

/-- The same system, up to the form in which its second derivatives are given. -/
structure Alike (s s' : System Exact n m) : Prop where
  hessian : s'.hessian.toMat = s.hessian.toMat
  jacobian : s'.jacobian = s.jacobian
  x : s'.x = s.x
  z : s'.z = s.z

variable {s s' : System Exact n m}

theorem Alike.symm (h : s.Alike s') : s'.Alike s :=
  ⟨h.hessian.symm, h.jacobian.symm, h.x.symm, h.z.symm⟩

theorem Alike.singularCurvature_iff (h : s.Alike s') :
    s'.SingularCurvature ↔ s.SingularCurvature := by
  unfold SingularCurvature curvature
  rw [h.hessian, h.x, h.z]

/-- What is like a real system is a real system with the same matrices. -/
theorem Alike.exists_exact {t : System ℝ n m} (h : t.exact.Alike s') :
    ∃ t' : System ℝ n m, s' = t'.exact ∧ t'.blockMatrix = t.blockMatrix ∧
      t'.curvatureMatrix = t.curvatureMatrix := by
  have hmatrix : s'.hessian.toMat = Mat.ofReal t.hessian.matrix :=
    h.hessian.trans (Hessian.toMat_exact t.hessian)
  obtain ⟨K, hK⟩ := Hessian.exists_exact (H := s'.hessian) (by rw [hmatrix]; simp)
  have hsame : K.matrix = t.hessian.matrix := by
    rw [hK, Hessian.toMat_exact] at hmatrix
    exact Mat.ofReal_inj.mp hmatrix
  refine ⟨{ t with hessian := K }, ?_, ?_, ?_⟩
  · obtain ⟨H, A, x, z⟩ := s'
    obtain rfl : H = K.exact := hK
    obtain rfl : A = _ := h.jacobian
    obtain rfl : x = _ := h.x
    obtain rfl : z = _ := h.z
    rfl
  · unfold blockMatrix
    rw [hsame]
  · unfold curvatureMatrix
    rw [hsame]

theorem not_singularCurvature_exact {t : System ℝ n m} (hx : ∀ i, 0 < t.exact.x i)
    (hG : IsUnit t.curvatureMatrix) : ¬t.exact.SingularCurvature := by
  rintro ⟨G, hcurvature, hsingular⟩
  rw [curvature_exact (x_ne_zero_of_exact hx)] at hcurvature
  exact hsingular (Mat.ofReal_inj.mp hcurvature ▸ hG)

end System

/-! ### The direction -/

theorem Direction.isFinite_exact (d : Direction ℝ n m) : d.exact.isFinite = true := by
  simp [Direction.isFinite, Direction.exact]

namespace Solver

variable {k : Solver Exact}

/-- What a solver finds for real data is the solution of the Newton equations, when its method
succeeds. -/
theorem direction?_exact {t : System ℝ n m} (hx : ∀ i, t.x i ≠ 0) (q : Rhs ℝ n m)
    (hK : IsUnit t.blockMatrix) (hG : k.method = .rangespace → IsUnit t.curvatureMatrix) :
    ∃ e : Direction ℝ n m, (k.direction? t.exact q.exact).1 = some e.exact ∧ t.Solves e q := by
  obtain ⟨F, hF⟩ :=
    Option.isSome_iff_exists.mp ((System.isSome_factor_iff hx k.method).mpr ⟨hK, hG⟩)
  obtain ⟨e, he, hsolves⟩ := System.exists_solves hx hF q
  refine ⟨e, ?_, hsolves⟩
  rw [direction?_fst, hF, Option.bind_some, he, if_pos e.isFinite_exact]

/-- For real data nothing is found when the method fails. -/
theorem direction?_exact_eq_none {t : System ℝ n m} (hx : ∀ i, t.x i ≠ 0) (q : Rhs ℝ n m)
    (h : ¬(IsUnit t.blockMatrix ∧ (k.method = .rangespace → IsUnit t.curvatureMatrix))) :
    (k.direction? t.exact q.exact).1 = none := by
  rw [← System.isSome_factor_iff hx k.method, Option.not_isSome_iff_eq_none] at h
  rw [direction?_fst, h, Option.bind_none]

/-- What a method needs to factor a real system, where it does not divide by zero. -/
theorem isSome_factor_iff {t : System ℝ n m} {method : Method}
    (hx : method ≠ .fullspace → ∀ i, t.x i ≠ 0) :
    (t.exact.factor method).isSome = true ↔
      IsUnit t.blockMatrix ∧ (method = .rangespace → IsUnit t.curvatureMatrix) := by
  by_cases hfull : method = .fullspace
  · subst hfull
    exact (System.isSome_factorFullspace t).trans (by simp)
  · exact System.isSome_factor_iff (hx hfull) method

/-- What it then finds solves the Newton equations. -/
theorem exists_solves {t : System ℝ n m} {method : Method}
    (hx : method ≠ .fullspace → ∀ i, t.x i ≠ 0) {F : Factorization Exact n m}
    (hF : t.exact.factor method = some F) (q : Rhs ℝ n m) :
    ∃ e : Direction ℝ n m, F.solve t.exact q.exact = e.exact ∧ t.Solves e q := by
  by_cases hfull : method = .fullspace
  · subst hfull
    exact System.exists_solves_of_factorFullspace hF q
  · exact System.exists_solves (hx hfull) hF q

/-- **When a direction is found, and which one**: exactly when the data are real, no method but the
full-space one meets a variable that is zero, the whole matrix is invertible and, for the range-space
method, the curvature is too; and the direction is the solution of the Newton equations. -/
theorem direction?_eq_some_iff_solves {s : System Exact n m} {r : Rhs Exact n m}
    {d : Direction Exact n m} :
    (k.direction? s r).1 = some d ↔
      ∃ (t : System ℝ n m) (q : Rhs ℝ n m) (e : Direction ℝ n m),
        s = t.exact ∧ r = q.exact ∧ d = e.exact ∧ (k.method ≠ .fullspace → ∀ i, t.x i ≠ 0) ∧
          IsUnit t.blockMatrix ∧ (k.method = .rangespace → IsUnit t.curvatureMatrix) ∧
            t.Solves e q := by
  rw [direction?_fst]
  constructor
  · intro h
    rw [Option.bind_eq_some_iff] at h
    obtain ⟨F, hF, h⟩ := h
    rw [Option.ite_none_right_eq_some] at h
    obtain ⟨hfinite, hd⟩ := h
    obtain ⟨t, q, rfl, rfl⟩ := (System.finiteData_of_solve hF hfinite).exists_exact
    have hx := System.x_ne_zero_of_solve hF hfinite
    obtain ⟨e, he, hsolves⟩ := exists_solves hx hF q
    obtain ⟨hK, hG⟩ := (isSome_factor_iff hx).mp (Option.isSome_of_eq_some hF)
    rw [he] at hd
    exact ⟨t, q, e, rfl, rfl, (Option.some.inj hd).symm, hx, hK, hG, hsolves⟩
  · rintro ⟨t, q, e, rfl, rfl, rfl, hx, hK, hG, hsolves⟩
    obtain ⟨F, hF⟩ := Option.isSome_iff_exists.mp ((isSome_factor_iff hx).mpr ⟨hK, hG⟩)
    obtain ⟨e', he', hsolves'⟩ := exists_solves hx hF q
    rw [hF, Option.bind_some, he', if_pos e'.isFinite_exact, System.solves_unique hK hsolves' hsolves]

/-- At positive variables no method divides by zero. -/
theorem direction?_eq_some_iff {s : System Exact n m} (hx : ∀ i, 0 < s.x i)
    {r : Rhs Exact n m} {d : Direction Exact n m} :
    (k.direction? s r).1 = some d ↔
      ∃ (t : System ℝ n m) (q : Rhs ℝ n m) (e : Direction ℝ n m),
        s = t.exact ∧ r = q.exact ∧ d = e.exact ∧ IsUnit t.blockMatrix ∧
          (k.method = .rangespace → IsUnit t.curvatureMatrix) ∧ t.Solves e q := by
  rw [direction?_eq_some_iff_solves]
  constructor
  · rintro ⟨t, q, e, hs, hr, hd, -, hsolves⟩
    exact ⟨t, q, e, hs, hr, hd, hsolves⟩
  · rintro ⟨t, q, e, rfl, hr, hd, hsolves⟩
    exact ⟨t, q, e, rfl, hr, hd, fun _ => System.x_ne_zero_of_exact hx, hsolves⟩

/-! ### Systems that are alike -/

variable {k' : Solver Exact} {s s' : System Exact n m} {r : Rhs Exact n m}

/-- The range-space method finds nothing where the curvature is singular. -/
theorem direction?_eq_none_of_singular (hx : ∀ i, 0 < s.x i) (hk : k.method = .rangespace)
    (hs : s.SingularCurvature) : (k.direction? s r).1 = none := by
  rw [Option.eq_none_iff_forall_ne_some]
  intro d hd
  obtain ⟨t, q, e, rfl, -, -, -, hG, -⟩ := (direction?_eq_some_iff hx).mp hd
  exact System.not_singularCurvature_exact hx (hG hk) hs

/-- What is found for a system is found for every one alike, by every method that its curvature does
not hinder. -/
theorem direction?_eq_some_of_alike (hx : ∀ i, 0 < s.x i) (h : s.Alike s')
    (hk' : k'.method = .rangespace → ¬s.SingularCurvature) {d : Direction Exact n m}
    (hd : (k.direction? s r).1 = some d) : (k'.direction? s' r).1 = some d := by
  obtain ⟨t, q, e, rfl, rfl, rfl, hK, -, hsolves⟩ := (direction?_eq_some_iff hx).mp hd
  obtain ⟨t', rfl, hblock, hcurvature⟩ := h.exists_exact
  refine (direction?_eq_some_iff (by rw [h.x]; exact hx)).mpr
    ⟨t', q, e, rfl, rfl, rfl, hblock ▸ hK, fun hrange => ?_, ?_⟩
  · rw [hcurvature]
    by_contra hG
    exact hk' hrange ⟨t.curvatureMatrix, System.curvature_exact (System.x_ne_zero_of_exact hx), hG⟩
  · rw [System.solves_iff_blockMatrix, hblock, ← System.solves_iff_blockMatrix]
    exact hsolves

/-- **Alike systems have the same direction**, by any two methods that the curvature does not
hinder. -/
theorem direction?_eq_of_alike (hx : ∀ i, 0 < s.x i) (h : s.Alike s')
    (hk : k.method = .rangespace → ¬s.SingularCurvature)
    (hk' : k'.method = .rangespace → ¬s.SingularCurvature) :
    (k'.direction? s' r).1 = (k.direction? s r).1 := by
  apply Option.ext
  intro d
  constructor
  · intro hd
    have hx' : ∀ i, 0 < s'.x i := by rw [h.x]; exact hx
    refine direction?_eq_some_of_alike hx' h.symm (fun hrange => ?_) hd
    rw [h.singularCurvature_iff]
    exact hk hrange
  · exact direction?_eq_some_of_alike hx h hk'

end Solver

end Kkt

end GibbsNewton
