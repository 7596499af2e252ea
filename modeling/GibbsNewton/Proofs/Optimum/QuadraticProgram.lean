import GibbsNewton.Optimum.Coefficients
import GibbsNewton.Proofs.Optimum.Gap
import GibbsNewton.Proofs.Optimum.Lockstep
import Mathlib.LinearAlgebra.Matrix.IsDiag

/-!
# Residuals on quadratic programs

When the objective is quadratic and the constraints are affine, two of the three Newton equations are
exact: along the direction `(dx, dy, dz)` the residuals of stationarity and of the constraints are affine
functions that vanish at its end.  A common step of length `a` for variables and multipliers therefore
multiplies both by `1 - a`.  The third residual is a product of two unknowns, and the Newton equation
leaves its second-order term:

    x' ∘ z' - mu = (1 - a) (x ∘ z - mu) + a² dx ∘ dz

Over a run the factors multiply, the same ones for both norms.

## Main definitions

* `Problem.Quadratic` — the objective is quadratic, the constraints are affine, and the derivatives are
  theirs.
* `Coefficients.ofQuadratic` — the coefficients of such a problem.
* `ResidualVectors`, `ResidualVectors.afterStep` — residuals before their norms are taken, and what a
  common step makes of them.
* `Run.CommonStepLaw` — how the residuals change over a run with common steps.

## Main results

* `Iterate.residualVectors_moved` — what a common step along a Newton direction does to the residuals.
* `Problem.Moves.quadratic` — **one update on a quadratic program.**
* `Newton.commonStepLaw_of_solve` — **the law of the common step over a whole run.**
-/

namespace GibbsNewton

open Matrix

variable {n m : ℕ}

namespace Optimum

/-! ### Quadratic programs -/

/-- The problem of minimising `const + l·x + x·(Q x) / 2` subject to `A x = b`: its functions have these
values at all real points, in whatever form the second derivatives `Q` come. -/
structure Problem.Quadratic (p : Problem Exact n m) (const : ℝ) (l : Fin n → ℝ)
    (Q : Matrix (Fin n) (Fin n) ℝ) (A : Matrix (Fin m) (Fin n) ℝ) (b : Fin m → ℝ) : Prop
    extends p.Affine A b where
  objective_eq : ∀ x : Fin n → ℝ,
    p.objective (Vec.ofReal x) = ((const + l ⬝ᵥ x + x ⬝ᵥ (Q *ᵥ x) / 2 : ℝ) : Exact)
  gradient_eq : ∀ x : Fin n → ℝ,
    p.gradient (Vec.ofReal x) = Vec.ofReal (l + (1 / 2 : ℝ) • (Q *ᵥ x + Qᵀ *ᵥ x))
  hessian_eq : ∀ (x : Fin n → ℝ) (g : Vec Exact n),
    (p.hessian (Vec.ofReal x) g).toMat = Mat.ofReal Q

/-- The coefficients of a quadratic program. -/
noncomputable def Coefficients.ofQuadratic (const : ℝ) (l : Fin n → ℝ) (Q : Matrix (Fin n) (Fin n) ℝ)
    (A : Matrix (Fin m) (Fin n) ℝ) (b : Fin m → ℝ) (diagonalOnly : Bool) : Coefficients Exact n m where
  constant := const
  linear := Vec.ofReal l
  quadratic := Mat.ofReal Q
  entropic := Vec.ofReal 0
  quartic := Vec.ofReal 0
  constraint := Mat.ofReal A
  squares := Mat.ofReal 0
  bound := Vec.ofReal b
  diagonalOnly

/-- They are those of a quadratic program; only a diagonal may be given as such. -/
theorem Coefficients.quadratic_ofQuadratic (const : ℝ) (l : Fin n → ℝ)
    (Q : Matrix (Fin n) (Fin n) ℝ) (A : Matrix (Fin m) (Fin n) ℝ) (b : Fin m → ℝ)
    {diagonalOnly : Bool} (hQ : diagonalOnly = true → Q.IsDiag) :
    (ofQuadratic const l Q A b diagonalOnly).problem.Quadratic const l Q A b where
  constraint_eq x := by
    have hsquares : (Vec.ofReal x).map (fun a => a * a) = Vec.ofReal fun i => x i * x i := by
      apply Vec.ext
      intro i
      simp
    change (((Mat.ofReal A).mulVec (Vec.ofReal x)).add ((Mat.ofReal 0).mulVec
      ((Vec.ofReal x).map fun a => a * a))).sub (Vec.ofReal b) = _
    rw [hsquares, Mat.mulVec_ofReal, Mat.mulVec_ofReal, Vec.add_ofReal, Vec.sub_ofReal, zero_mulVec,
      add_zero]
  jacobian_eq x := by
    apply Mat.ext_apply
    intro i j
    simp [problem, ofQuadratic, Exact.ofNat_eq]
  objective_eq x := by
    simp [problem, objective, ofQuadratic, Exact.ofNat_eq, Exact.div_coe _ (two_ne_zero (α := ℝ))]
  gradient_eq x := by
    apply Vec.ext
    intro i
    simp [problem, gradient, ofQuadratic, Exact.ofNat_eq, Exact.div_coe _ (two_ne_zero (α := ℝ))]
    ring
  hessian_eq x g := by
    apply Mat.ext_apply
    intro i j
    cases diagonalOnly with
    | false => simp [problem, hessian, ofQuadratic, Hessian.toMat, Exact.ofNat_eq]
    | true =>
      by_cases hij : i = j
      · subst hij
        simp [problem, hessian, ofQuadratic, Hessian.toMat, Exact.ofNat_eq]
      · simp [problem, hessian, ofQuadratic, Hessian.toMat, hij, hQ rfl hij]

/-! ### Residuals -/

/-- The residuals of a point, before their norms are taken. -/
structure ResidualVectors (n m : ℕ) where
  /-- `g - Aᵀ y - z`. -/
  stationarity : Fin n → ℝ
  /-- The constraints. -/
  feasibility : Fin m → ℝ
  /-- `x ∘ z - mu`. -/
  centrality : Fin n → ℝ

namespace ResidualVectors

/-- What a common step of length `a` along `d` makes of them. -/
def afterStep (e : ResidualVectors n m) (d : Kkt.Direction ℝ n m) (a : ℝ) :
    ResidualVectors n m where
  stationarity := (1 - a) • e.stationarity
  feasibility := (1 - a) • e.feasibility
  centrality := (1 - a) • e.centrality + a ^ 2 • (⇑d.dx * ⇑d.dz)

/-- Their norms, as a run reports them. -/
noncomputable def norms (e : ResidualVectors n m) : Residuals Exact where
  stationarity := (‖e.stationarity‖ : ℝ)
  feasibility := (‖e.feasibility‖ : ℝ)
  centrality := (‖e.centrality‖ : ℝ)

/-- The right-hand side of the Newton equations. -/
def rhs (e : ResidualVectors n m) : Kkt.Rhs ℝ n m where
  rx := Vec.of (-e.stationarity)
  ry := Vec.of (-e.feasibility)
  rz := Vec.of (-e.centrality)

end ResidualVectors

/-- The residuals of a state are these. -/
structure State.HasResiduals (s : State Exact n m) (mu : Exact) (e : ResidualVectors n m) : Prop where
  lagrangian_eq : s.lagrangian = Vec.ofReal e.stationarity
  constraint_eq : s.values.constraint = Vec.ofReal e.feasibility
  complementarity_eq : s.complementarity mu = Vec.ofReal e.centrality

theorem State.HasResiduals.residuals_eq {s : State Exact n m} {mu : Exact} {e : ResidualVectors n m}
    (h : s.HasResiduals mu e) : s.residuals mu = e.norms := by
  rw [residuals, h.lagrangian_eq, h.constraint_eq, h.complementarity_eq, Vec.normInf_ofReal,
    Vec.normInf_ofReal, Vec.normInf_ofReal, ResidualVectors.norms]

theorem State.HasResiduals.unique {s : State Exact n m} {mu : Exact} {e e' : ResidualVectors n m}
    (h : s.HasResiduals mu e) (h' : s.HasResiduals mu e') : e = e' := by
  obtain ⟨ℓ, f, κ⟩ := e
  obtain ⟨ℓ', f', κ'⟩ := e'
  obtain rfl : ℓ = ℓ' := Vec.ofReal_inj.mp (h.lagrangian_eq.symm.trans h'.lagrangian_eq)
  obtain rfl : f = f' := Vec.ofReal_inj.mp (h.constraint_eq.symm.trans h'.constraint_eq)
  obtain rfl : κ = κ' := Vec.ofReal_inj.mp (h.complementarity_eq.symm.trans h'.complementarity_eq)
  rfl

theorem State.HasResiduals.rhs_eq {s : State Exact n m} {mu : Exact} {e : ResidualVectors n m}
    (h : s.HasResiduals mu e) : s.rhs mu = e.rhs.exact := by
  rw [rhs, h.lagrangian_eq, h.constraint_eq, h.complementarity_eq, Vec.neg_ofReal, Vec.neg_ofReal,
    Vec.neg_ofReal, ResidualVectors.rhs, Kkt.Rhs.exact, Vec.get_of, Vec.get_of, Vec.get_of]

/-! ### One common step -/

namespace Iterate

variable {u : Iterate ℝ n m} {d : Kkt.Direction ℝ n m} {l : Fin n → ℝ}
  {Q : Matrix (Fin n) (Fin n) ℝ} {A : Matrix (Fin m) (Fin n) ℝ} {b : Fin m → ℝ} {mu : ℝ}

/-- The residuals of a quadratic program with symmetric `Q`. -/
noncomputable def residualVectors (u : Iterate ℝ n m) (l : Fin n → ℝ) (Q : Matrix (Fin n) (Fin n) ℝ)
    (A : Matrix (Fin m) (Fin n) ℝ) (b : Fin m → ℝ) (mu : ℝ) : ResidualVectors n m where
  stationarity := l + Q *ᵥ ⇑u.x - Aᵀ *ᵥ ⇑u.y - ⇑u.z
  feasibility := A *ᵥ ⇑u.x - b
  centrality := fun i => u.x i * u.z i - mu

/-- The direction solves the Newton equations of the quadratic program. -/
structure NewtonEquations (u : Iterate ℝ n m) (d : Kkt.Direction ℝ n m)
    (Q : Matrix (Fin n) (Fin n) ℝ) (A : Matrix (Fin m) (Fin n) ℝ) (e : ResidualVectors n m) :
    Prop where
  stationarity : Q *ᵥ ⇑d.dx - Aᵀ *ᵥ ⇑d.dy - ⇑d.dz = -e.stationarity
  feasibility : A *ᵥ ⇑d.dx = -e.feasibility
  centrality : ∀ i, u.z i * d.dx i + u.x i * d.dz i = -e.centrality i

/-- **What a common step does to the residuals.**  The first two are affine along the direction; the
products of the third keep a term of second order. -/
theorem residualVectors_moved (t : StepLengths ℝ)
    (h : u.NewtonEquations d Q A (u.residualVectors l Q A b mu)) :
    (u.moved d t true).residualVectors l Q A b mu =
      (u.residualVectors l Q A b mu).afterStep d t.common := by
  obtain ⟨hstationarity, hfeasibility, hcentrality⟩ := h
  simp only [residualVectors] at hstationarity hfeasibility hcentrality
  simp only [residualVectors, moved, StepLengths.along, if_true, Vec.get_of,
    ResidualVectors.afterStep, mulVec_add, mulVec_smul, ResidualVectors.mk.injEq]
  set a := t.common
  refine ⟨?_, ?_, ?_⟩
  -- the first two are affine along the direction, and the Newton equation gives their slope
  · calc l + (Q *ᵥ ⇑u.x + a • Q *ᵥ ⇑d.dx) - (Aᵀ *ᵥ ⇑u.y + a • Aᵀ *ᵥ ⇑d.dy) - (⇑u.z + a • ⇑d.dz)
        = (l + Q *ᵥ ⇑u.x - Aᵀ *ᵥ ⇑u.y - ⇑u.z) +
            a • (Q *ᵥ ⇑d.dx - Aᵀ *ᵥ ⇑d.dy - ⇑d.dz) := by module
      _ = (1 - a) • (l + Q *ᵥ ⇑u.x - Aᵀ *ᵥ ⇑u.y - ⇑u.z) := by
        rw [hstationarity]
        module
  · calc A *ᵥ ⇑u.x + a • A *ᵥ ⇑d.dx - b = (A *ᵥ ⇑u.x - b) + a • A *ᵥ ⇑d.dx := by module
      _ = (1 - a) • (A *ᵥ ⇑u.x - b) := by
        rw [hfeasibility]
        module
  -- the third is a product, whose linear part is all that the equation knows
  · funext i
    have hi := hcentrality i
    simp only [Pi.add_apply, Pi.smul_apply, Pi.mul_apply, smul_eq_mul]
    linear_combination a * hi

end Iterate

namespace Problem

variable {p : Problem Exact n m} {c : Settings Exact} {s : State Exact n m} {u : Iterate ℝ n m}
  {const : ℝ} {l : Fin n → ℝ} {Q : Matrix (Fin n) (Fin n) ℝ} {A : Matrix (Fin m) (Fin n) ℝ}
  {b : Fin m → ℝ}

/-- The residuals at a real state with its own values. -/
theorem Quadratic.hasResiduals (hp : p.Quadratic const l Q A b) (hQ : Q.IsSymm) (hs : s.IsAt u)
    (hvalues : s.values = p.evaluate s.x) (mu : ℝ) :
    s.HasResiduals mu (u.residualVectors l Q A b mu) := by
  have hgradient : s.values.gradient = Vec.ofReal (l + Q *ᵥ ⇑u.x) := by
    have htrue : l + Q *ᵥ ⇑u.x = l + (1 / 2 : ℝ) • (Q *ᵥ ⇑u.x + Qᵀ *ᵥ ⇑u.x) := by
      rw [hQ.eq]
      module
    rw [hvalues, hs.x_eq, htrue]
    exact hp.gradient_eq _
  exact ⟨hs.lagrangian_eq hgradient (hp.jacobian_of_isAt hs hvalues),
    hp.constraint_of_isAt hs hvalues, hs.complementarity_eq mu⟩

/-- The second derivatives in the Newton system at a real state. -/
theorem Quadratic.matrix_hessian (hp : p.Quadratic const l Q A b) (hs : s.IsAt u)
    {scheme : HessianScheme} (hscheme : scheme = .exact ∨ Q.IsDiag) {K : Kkt.System ℝ n m}
    (hK : s.system p scheme = K.exact) : K.hessian.matrix = Q := by
  have hmat : (p.hessian s.x s.values.gradient).toMat = Mat.ofReal Q := by
    rw [hs.x_eq]
    exact hp.hessian_eq _ _
  have happly : (scheme.apply (p.hessian s.x s.values.gradient)).toMat = Mat.ofReal Q := by
    obtain rfl | hdiag := hscheme
    · exact hmat
    · have hdiagonal : (p.hessian s.x s.values.gradient).IsDiagonal := by
        intro i j hij
        rw [hmat]
        simp [hdiag hij]
      rw [hdiagonal.toMat_apply, hmat]
  have hsystem : scheme.apply (p.hessian s.x s.values.gradient) = K.hessian.exact :=
    congrArg Kkt.System.hessian hK
  rw [hsystem, Hessian.toMat_exact] at happly
  exact Mat.ofReal_inj.mp happly

/-- The solution of the Newton system at a real state solves the equations of the program. -/
theorem Quadratic.newtonEquations (hp : p.Quadratic const l Q A b) (hQ : Q.IsSymm) (hs : s.IsAt u)
    (hvalues : s.values = p.evaluate s.x) {scheme : HessianScheme}
    (hscheme : scheme = .exact ∨ Q.IsDiag) {mu : ℝ} {K : Kkt.System ℝ n m} {q : Kkt.Rhs ℝ n m}
    {d : Kkt.Direction ℝ n m} (hK : s.system p scheme = K.exact) (hq : s.rhs mu = q.exact)
    (hsolves : K.Solves d q) : u.NewtonEquations d Q A (u.residualVectors l Q A b mu) := by
  obtain rfl := hp.matrix_hessian hs hscheme hK
  obtain rfl : A = K.jacobian.toMatrix :=
    Mat.ofReal_inj.mp ((hp.jacobian_of_isAt hs hvalues).symm.trans
      (congrArg Kkt.System.jacobian hK))
  obtain rfl : q = (u.residualVectors l K.hessian.matrix K.jacobian.toMatrix b mu).rhs :=
    Kkt.Rhs.exact_inj.mp (hq.symm.trans (hp.hasResiduals hQ hs hvalues mu).rhs_eq)
  have hx : ⇑K.x = ⇑u.x := Vec.ofReal_inj.mp ((congrArg Kkt.System.x hK).symm.trans hs.x_eq)
  have hz : ⇑K.z = ⇑u.z := Vec.ofReal_inj.mp ((congrArg Kkt.System.z hK).symm.trans hs.z_eq)
  obtain ⟨hstationarity, hfeasibility, hcentrality⟩ := hsolves
  rw [hx, hz] at hcentrality
  exact ⟨hstationarity.trans (Vec.get_of _), hfeasibility.trans (Vec.get_of _), fun i =>
    (hcentrality i).trans (congrFun (Vec.get_of _) i)⟩

/-- **One update on a quadratic program**, with a common step. -/
theorem Moves.quadratic {v : Update Exact n m} (h : p.Moves c s v)
    (hp : p.Quadratic const l Q A b) (hQ : Q.IsSymm) (hscheme : c.scheme = .exact ∨ Q.IsDiag)
    (huniform : c.uniform = true) (hs : s.IsAt u) (hvalues : s.values = p.evaluate s.x) {mu tau : ℝ}
    (hmu : c.mu = mu) (htau : c.tau = tau) (hpos : 0 < tau) (hlt : tau < 1)
    {e : ResidualVectors n m} (he : s.HasResiduals mu e) :
    ∃ (d : Kkt.Direction ℝ n m) (a : ℝ),
      p.newton? c s = some d.exact ∧ v = p.update c s d.exact ∧ v.lengths.common = a ∧ 0 < a ∧
        a ≤ 1 ∧ v.state.HasResiduals mu (e.afterStep d a) := by
  obtain ⟨K, q, d, hK, hq, hunit, hsolves, hlengths, hstate⟩ := h.exists_real hs htau hpos hlt
  obtain ⟨ha, ha1⟩ := Iterate.along_reach (d := d) hs.x_pos hs.z_pos hpos true
  rw [huniform] at hstate
  obtain ⟨hfound, hupdate⟩ := h.eq_update hs hK hq hunit hsolves
  refine ⟨d, (u.reach d tau).common, hfound, hupdate, by rw [hlengths]; rfl, ha, ha1, ?_⟩
  obtain rfl := he.unique (hp.hasResiduals hQ hs hvalues mu)
  rw [← Iterate.residualVectors_moved _
    (hp.newtonEquations hQ hs hvalues hscheme hK (hmu ▸ hq) hsolves)]
  exact hp.hasResiduals hQ hstate h.follows.values_eq mu

end Problem

/-! ### Whole runs -/

/-- **The law of the common step** for a run with the updates `us` made under the settings `c`: what its
residuals `e` are at each state, and what each update makes of them, of length `a` along `d`. -/
structure Run.CommonStepLaw (r : Run Exact n m) (p : Problem Exact n m) (c : Settings Exact)
    (us : List (Update Exact n m)) (e : ℕ → ResidualVectors n m) (d : ℕ → Kkt.Direction ℝ n m)
    (a : ℕ → ℝ) : Prop where
  /-- The state numbered `k` has the residuals `e k`. -/
  state : ∀ k ≤ us.length, ∃ s, r.visited[k]? = some s ∧ s.HasResiduals c.mu (e k)
  /-- The update numbered `k` goes the length `a k` along the Newton direction `d k`, and reports the
  norms of the residuals that it leads to. -/
  update : ∀ (k : ℕ) (hk : k < us.length),
    (∃ s, r.visited[k]? = some s ∧ p.newton? c s = some (d k).exact ∧
      us[k] = p.update c s (d k).exact) ∧
    us[k].lengths.common = a k ∧ 0 < a k ∧ a k ≤ 1 ∧ us[k].residuals = (e (k + 1)).norms
  /-- It leaves the share `1 - a k` of the first two residuals, and of the third one but for a term of
  second order. -/
  step : ∀ k < us.length, e (k + 1) = (e k).afterStep (d k) (a k)
  /-- Neither of the first two norms grows. -/
  shrinks : ∀ k < us.length, ‖(e (k + 1)).stationarity‖ ≤ ‖(e k).stationarity‖ ∧
    ‖(e (k + 1)).feasibility‖ ≤ ‖(e k).feasibility‖
  /-- Over the run both shrink by the same factor. -/
  norms : ∀ k ≤ us.length,
    ‖(e k).stationarity‖ = (∏ j ∈ Finset.range k, (1 - a j)) * ‖(e 0).stationarity‖ ∧
      ‖(e k).feasibility‖ = (∏ j ∈ Finset.range k, (1 - a j)) * ‖(e 0).feasibility‖

/-- What a common step leaves of the first two norms. -/
theorem ResidualVectors.norm_afterStep (e : ResidualVectors n m) (d : Kkt.Direction ℝ n m) {a : ℝ}
    (ha : a ≤ 1) : ‖(e.afterStep d a).stationarity‖ = (1 - a) * ‖e.stationarity‖ ∧
      ‖(e.afterStep d a).feasibility‖ = (1 - a) * ‖e.feasibility‖ := by
  have hfactor : ‖1 - a‖ = 1 - a := Real.norm_of_nonneg (by linarith)
  rw [afterStep, norm_smul, norm_smul, hfactor]
  exact ⟨rfl, rfl⟩

/-- The law follows from what the states and the updates are. -/
theorem Run.commonStepLaw_of_step {r : Run Exact n m} {p : Problem Exact n m} {c : Settings Exact}
    {us : List (Update Exact n m)} {e : ℕ → ResidualVectors n m} {d : ℕ → Kkt.Direction ℝ n m}
    {a : ℕ → ℝ}
    (hstate : ∀ k ≤ us.length, ∃ s, r.visited[k]? = some s ∧ s.HasResiduals c.mu (e k))
    (hupdate : ∀ (k : ℕ) (hk : k < us.length),
      (∃ s, r.visited[k]? = some s ∧ p.newton? c s = some (d k).exact ∧
        us[k] = p.update c s (d k).exact) ∧
      us[k].lengths.common = a k ∧ 0 < a k ∧ a k ≤ 1 ∧ us[k].residuals = (e (k + 1)).norms)
    (hstep : ∀ k < us.length, e (k + 1) = (e k).afterStep (d k) (a k)) :
    r.CommonStepLaw p c us e d a := by
  have hnext : ∀ k < us.length, ‖(e (k + 1)).stationarity‖ = (1 - a k) * ‖(e k).stationarity‖ ∧
      ‖(e (k + 1)).feasibility‖ = (1 - a k) * ‖(e k).feasibility‖ := by
    intro k hk
    obtain ⟨-, -, -, hle, -⟩ := hupdate k hk
    rw [hstep k hk]
    exact (e k).norm_afterStep (d k) hle
  refine ⟨hstate, hupdate, hstep, fun k hk => ?_, fun k => ?_⟩
  · obtain ⟨-, -, hpos, -, -⟩ := hupdate k hk
    obtain ⟨hs, hf⟩ := hnext k hk
    have hfactor : 1 - a k ≤ 1 := by linarith
    rw [hs, hf]
    exact ⟨mul_le_of_le_one_left (norm_nonneg _) hfactor,
      mul_le_of_le_one_left (norm_nonneg _) hfactor⟩
  · induction k with
    | zero => simp
    | succ k ih =>
      intro hk
      obtain ⟨hs, hf⟩ := hnext k hk
      obtain ⟨ihs, ihf⟩ := ih (Nat.le_of_succ_le hk)
      rw [hs, hf, ihs, ihf, Finset.prod_range_succ]
      constructor <;> ring

/-- **The law of the common step.**  On a quadratic program, with any method for the Newton systems, a
solver answers a run with common steps whose updates change the residuals by the law. -/
theorem Newton.commonStepLaw_of_solve (w : Newton Exact) {p : Problem Exact n m} {const : ℝ}
    {l : Fin n → ℝ} {Q : Matrix (Fin n) (Fin n) ℝ} {A : Matrix (Fin m) (Fin n) ℝ} {b : Fin m → ℝ}
    (hp : p.Quadratic const l Q A b) (hQ : Q.IsSymm) {o : Options Exact} {c : Settings Exact}
    (ho : o.check = .ok c) (hmux : 0 < o.mux) (huniform : o.uniform = true)
    (hscheme : c.scheme = .exact ∨ c.scheme = .diagonal ∧ Q.IsDiag) (s : Start ℝ) :
    ∃ run w' us e d a, w.solve p o s.exact = .ok (run, w') ∧
      run.start = (s.exact.iterate o.mu o.mux n m).evaluate p ∧ run.AllUpdates p c us ∧
      run.CommonStepLaw p c us e d a := by
  obtain ⟨run, w', hw', hstart, hrun⟩ := w.overReals_of_solve p ho hmux s
  have hacc := Options.accepted_of_check ho
  obtain ⟨mu, tau, hmu, htau, hmupos, htaupos, htaulr⟩ := hacc.exists_real
  rw [← hacc.uniform_eq] at huniform
  obtain ⟨us, hus⟩ : ∃ us, run.AllUpdates p c us := hrun.course.exists_allUpdates
  obtain ⟨t, u, hstates, hmoves⟩ := hrun.exists_states hus
  let e (k : ℕ) : ResidualVectors n m := (u k).residualVectors l Q A b mu
  have he : ∀ k ≤ us.length, (t k).HasResiduals c.mu (e k) := by
    intro k hk
    obtain ⟨-, hu, hvalues⟩ := hstates k hk
    rw [hmu]
    exact hp.hasResiduals hQ hu hvalues mu
  have hstep : ∀ (k : ℕ) (hk : k < us.length), ∃ (d : Kkt.Direction ℝ n m) (a : ℝ),
      (p.newton? c (t k) = some d.exact ∧ us[k] = p.update c (t k) d.exact) ∧
        us[k].lengths.common = a ∧ 0 < a ∧ a ≤ 1 ∧ e (k + 1) = (e k).afterStep d a := by
    intro k hk
    obtain ⟨-, hu, hvalues⟩ := hstates k hk.le
    obtain ⟨hmove, hnext⟩ := hmoves k hk
    obtain ⟨d, a, hd, hupdate, ha, hpos, hle, hafter⟩ := hmove.quadratic hp hQ
      (hscheme.imp_right And.right) huniform hu hvalues hmu htau htaupos htaulr (hmu ▸ he k hk.le)
    rw [hnext, ← hmu] at hafter
    exact ⟨d, a, ⟨hd, hupdate⟩, ha, hpos, hle, (he (k + 1) hk).unique hafter⟩
  have : Nonempty (Kkt.Direction ℝ n m) := ⟨⟨Vec.of 0, Vec.of 0, Vec.of 0⟩⟩
  choose! d a h using hstep
  refine ⟨run, w', us, e, d, a, hw', hstart, hus, Run.commonStepLaw_of_step (fun k hk => ?_)
    (fun k hk => ?_) fun k hk => (h k hk).2.2.2.2⟩
  · exact ⟨t k, (hstates k hk).1, he k hk⟩
  · obtain ⟨⟨hd, hupdate⟩, ha, hpos, hle, -⟩ := h k hk
    have hreported : us[k].residuals = us[k].state.residuals c.mu := by
      rw [hupdate]
      rfl
    refine ⟨⟨t k, (hstates k hk.le).1, hd, hupdate⟩, ha, hpos, hle, ?_⟩
    rw [hreported, (hmoves k hk).2, (he (k + 1) hk).residuals_eq]

/-- Accepted options stay so when they ask for common steps. -/
theorem Options.Accepted.check_uniform {o : Options Exact} {c : Settings Exact} (h : o.Accepted c) :
    ({ o with uniform := true } : Options Exact).check = .ok { c with uniform := true } :=
  Accepted.check_eq { h with uniform_eq := rfl }

/-- Two shares of a whole whose costs are coupled. -/
noncomputable def coupled : Problem Exact 2 1 :=
  (Coefficients.ofQuadratic 0 ![1, -1] !![1, 1; 1, 1] !![1, 1] ![1] false).problem

/-- The run that shares out a whole at coupled costs, from no start at all. -/
theorem Newton.commonStepLaw_of_solve_coupled :
    let o : Options Exact := { Options.default with uniform := true }
    ∃ c, coupled.Quadratic 0 ![1, -1] !![1, 1; 1, 1] !![1, 1] ![1] ∧
      (!![1, 1; 1, 1] : Matrix (Fin 2) (Fin 2) ℝ).IsSymm ∧ o.check = .ok c ∧ 0 < o.mux ∧
      c.scheme = .exact ∧
      ∃ run w' us e d a, ({} : Newton Exact).solve coupled o (Start.exact {}) = .ok (run, w') ∧
        run.start = ((Start.exact {}).iterate o.mu o.mux 2 1).evaluate coupled ∧
        run.AllUpdates coupled c us ∧ run.CommonStepLaw coupled c us e d a := by
  intro o
  obtain ⟨c, hc⟩ := Options.exists_check_default
  have hacc := Options.accepted_of_check hc
  have hp : coupled.Quadratic 0 ![1, -1] !![1, 1; 1, 1] !![1, 1] ![1] :=
    Coefficients.quadratic_ofQuadratic 0 _ _ _ _ nofun
  have hQ : (!![1, 1; 1, 1] : Matrix (Fin 2) (Fin 2) ℝ).IsSymm := by
    apply Matrix.IsSymm.ext
    intro i j
    fin_cases i <;> fin_cases j <;> rfl
  have hscheme : c.scheme = .exact := by
    have hname : HessianScheme.ofName? "exact" = some c.scheme := hacc.scheme_eq
    exact Option.some.inj (hname.symm.trans (by decide))
  exact ⟨_, hp, hQ, hacc.check_uniform, Options.mux_default_pos, hscheme,
    commonStepLaw_of_solve {} hp hQ hacc.check_uniform Options.mux_default_pos rfl (.inl hscheme) {}⟩

end Optimum

end GibbsNewton
