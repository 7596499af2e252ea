import GibbsNewton.Optimum.Minimiser
import GibbsNewton.Proofs.Linear.LeastSquares
import GibbsNewton.Proofs.Optimum.QuadraticProgram

/-!
# What is made of a minimiser's answer

A minimiser is not trusted.  Its answer may be negative, infeasible, or a point where the problem has
no values; all that is asked of it here is that it is made of reals.  The answer is raised to the bound
of a starting point, and everything else is recovered there: bound multipliers that are central,
constraint multipliers that leave the least of the gradient of the Lagrangian, and the error.  The
routine for these least squares is given as well, and is asked to solve them for real data.  Central
multipliers leave no residual of complementarity, so the error is that of the other two.  The claim of
the minimiser that it succeeded is believed only when the error is below the tolerance.

## Main definitions

* `Minimum.exact`, `Minimum.raised` — a real answer, and the interior point that it is raised to.
* `State.Recovered` — a state with the multipliers that are recovered at its variables.
* `Iterate.recoveredError` — the error at such a state.
* `Minimum.Recovery`, `Minimum.GivenUp` — what is reported where the values are finite, and where they
  are not.

## Main results

* `Minimum.exists_recovery`, `Minimum.givenUp_finish` — the two ways to finish.
* `Minimiser.finished_of_solve` — **what a minimiser's answer leads to, whatever the answer is.**
-/

namespace GibbsNewton.Optimum

open Matrix

variable {n m : ℕ}

/-! ### Answers -/

/-- A real answer read as exact values. -/
def Minimum.exact (r : Minimum ℝ n) : Minimum Exact n where
  x := Vec.ofReal ⇑r.x
  succeeded := r.succeeded
  iterations := r.iterations

/-- The point that an answer is raised to. -/
noncomputable def Minimum.raised (r : Minimum ℝ n) (bound : ℝ) (i : Fin n) : ℝ := max (r.x i) bound

theorem Minimum.raised_pos (r : Minimum ℝ n) {bound : ℝ} (hbound : 0 < bound) (i : Fin n) :
    0 < r.raised bound i :=
  lt_max_of_lt_right hbound

theorem Minimum.raise_exact (r : Minimum ℝ n) (bound : ℝ) :
    r.exact.x.map (fun a => Scalar.maximum a (bound : Exact)) = Vec.ofReal (r.raised bound) := by
  apply Vec.ext
  intro i
  simp [exact, raised]

/-- Finite values are real ones. -/
theorem Evaluation.exists_real {e : Evaluation Exact n m} (h : e.isFinite = true) :
    ∃ (g : Fin n → ℝ) (c : Fin m → ℝ) (A : Matrix (Fin m) (Fin n) ℝ),
      e.gradient = Vec.ofReal g ∧ e.constraint = Vec.ofReal c ∧ e.jacobian = Mat.ofReal A := by
  simp only [isFinite, Bool.and_eq_true] at h
  obtain ⟨⟨⟨-, hgradient⟩, hconstraint⟩, hjacobian⟩ := h
  obtain ⟨g, hg⟩ := Vec.isFinite_iff.mp hgradient
  obtain ⟨c, hc⟩ := Vec.isFinite_iff.mp hconstraint
  obtain ⟨A, hA⟩ := Mat.isFinite_iff.mp hjacobian
  exact ⟨g, c, A, hg, hc, hA⟩

/-! ### Recovered multipliers -/

/-- The state is at `u`, its values are real, and its multipliers are those recovered there. -/
structure State.Recovered (s : State Exact n m) (mu : ℝ) (u : Iterate ℝ n m) (g : Fin n → ℝ)
    (h : Fin m → ℝ) (A : Matrix (Fin m) (Fin n) ℝ) : Prop extends s.IsAt u, s.RealValues g h A where
  /-- The bound multipliers are central. -/
  central : ∀ i, u.x i * u.z i = mu
  /-- No constraint multipliers leave less of `g - z`. -/
  least : ∀ y : Fin m → ℝ,
    ‖WithLp.toLp 2 (Aᵀ *ᵥ ⇑u.y - (g - ⇑u.z))‖ ≤ ‖WithLp.toLp 2 (Aᵀ *ᵥ y - (g - ⇑u.z))‖

/-- The larger one of the residuals of stationarity and of the constraints. -/
noncomputable def Iterate.recoveredError (u : Iterate ℝ n m) (g : Fin n → ℝ) (h : Fin m → ℝ)
    (A : Matrix (Fin m) (Fin n) ℝ) : ℝ :=
  max ‖g - Aᵀ *ᵥ ⇑u.y - ⇑u.z‖ ‖h‖

/-- With central bound multipliers the error is that of the other two residuals. -/
theorem State.Recovered.worst_eq {s : State Exact n m} {mu : ℝ} {u : Iterate ℝ n m} {g : Fin n → ℝ}
    {h : Fin m → ℝ} {A : Matrix (Fin m) (Fin n) ℝ} (hs : s.Recovered mu u g h A) :
    (s.residuals mu).worst = (u.recoveredError g h A : Exact) := by
  have hcentral : (fun i => u.x i * u.z i - mu) = (0 : Fin n → ℝ) := by
    apply funext
    intro i
    exact sub_eq_zero.mpr (hs.central i)
  have hresiduals : s.HasResiduals mu ⟨g - Aᵀ *ᵥ ⇑u.y - ⇑u.z, h, 0⟩ :=
    { lagrangian_eq := hs.lagrangian_eq hs.gradient_eq hs.jacobian_eq
      constraint_eq := hs.constraint_eq
      complementarity_eq := by rw [hs.complementarity_eq, hcentral] }
  rw [hresiduals.residuals_eq, ResidualVectors.norms, Residuals.worst, norm_zero, Exact.firstMax_coe,
    Exact.firstMax_coe, Iterate.recoveredError, max_eq_left (le_max_of_le_right (norm_nonneg h))]

/-- The iterate with central bound multipliers at `x` and constraint multipliers `y`. -/
noncomputable def centralIterate (mu : ℝ) (x : Fin n → ℝ) (y : Fin m → ℝ) : Iterate ℝ n m where
  x := Vec.of x
  y := Vec.of y
  z := Vec.of fun i => mu / x i

theorem centralIterate_exact (mu : ℝ) (x : Fin n → ℝ) (y : Fin m → ℝ) :
    (centralIterate mu x y).exact = ⟨Vec.ofReal x, Vec.ofReal y, Vec.ofReal fun i => mu / x i⟩ := by
  simp [centralIterate, Iterate.exact]

/-- Multipliers that leave the least are what is recovered. -/
theorem recovered_centralIterate {p : Problem Exact n m} {mu : ℝ} {x g : Fin n → ℝ} {h y : Fin m → ℝ}
    {A : Matrix (Fin m) (Fin n) ℝ} (hmu : 0 < mu) (hx : ∀ i, 0 < x i)
    (hvalues : State.RealValues ((centralIterate mu x y).exact.evaluate p) g h A)
    (hleast : ∀ w : Fin m → ℝ, ‖WithLp.toLp 2 (Aᵀ *ᵥ y - (g - fun i => mu / x i))‖ ≤
      ‖WithLp.toLp 2 (Aᵀ *ᵥ w - (g - fun i => mu / x i))‖) :
    ((centralIterate mu x y).exact.evaluate p).Recovered mu (centralIterate mu x y) g h A where
  iterate_eq := rfl
  x_pos i := by simpa [centralIterate] using hx i
  z_pos i := by simpa [centralIterate] using div_pos hmu (hx i)
  toRealValues := hvalues
  central i := by simp [centralIterate, mul_div_cancel₀ mu (hx i).ne']
  least w := by simpa [centralIterate] using hleast w

/-! ### The two ways to finish -/

/-- What is reported where the values are finite: the recovered multipliers and their error, and
convergence only if the minimiser claims success and the error is below the tolerance. -/
structure Minimum.Recovery (r : Minimum ℝ n) (tolerance : Exact) (mu : ℝ) (s : State Exact n m)
    (report : Report Exact) (u : Iterate ℝ n m) (g : Fin n → ℝ) (h : Fin m → ℝ)
    (A : Matrix (Fin m) (Fin n) ℝ) : Prop extends s.Recovered mu u g h A where
  error_eq : report.error = some (u.recoveredError g h A : Exact)
  succeeded_iff : report.succeeded = true ↔ report.status = .converged
  converged_iff : report.status = .converged ↔
    r.succeeded = true ∧ (u.recoveredError g h A : Exact) < tolerance
  otherwise : report.status ≠ .converged → report.status = .iterationLimit

/-- What is reported where some value is not finite: the multipliers of the start, and no error. -/
structure GivenUp (u : Iterate Exact n m) (s : State Exact n m) (report : Report Exact) : Prop where
  status_eq : report.status = .numericFailure
  succeeded_eq : report.succeeded = false
  error_eq : report.error = none
  y_eq : s.y = u.y
  z_eq : s.z = u.z

namespace Minimum

variable {p : Problem Exact n m} {c : Settings Exact} {mu mux : ℝ}

/-- The summary of a state whose largest residual is `e`. -/
noncomputable def reportAt (r : Minimum ℝ n) (tolerance e : Exact) : Report Exact where
  status := if r.succeeded && Scalar.lt e tolerance then .converged else .iterationLimit
  iterations := r.iterations
  error := some e

theorem status_reportAt_iff (r : Minimum ℝ n) (tolerance e : Exact) :
    (r.reportAt tolerance e).status = .converged ↔ r.succeeded = true ∧ e < tolerance := by
  simp [reportAt, Exact.lt_def]

theorem status_reportAt_of_ne {r : Minimum ℝ n} {tolerance e : Exact}
    (h : (r.reportAt tolerance e).status ≠ .converged) :
    (r.reportAt tolerance e).status = .iterationLimit := by
  unfold reportAt at h ⊢
  split at h
  · exact absurd rfl h
  next hnot => exact if_neg hnot

variable (minimise : Minimiser Exact) (r : Minimum ℝ n) (u : Iterate Exact n m) (hmu : c.mu = mu)
  (hmux : c.mux = mux)

include hmu hmux

/-- Where the values are finite, what is left of the answer is the point that it is raised to. -/
theorem finish_of_isFinite (hpos : ∀ i, 0 < r.raised (mux * mu) i)
    (hfinite : (p.evaluate (Vec.ofReal (r.raised (mux * mu)))).isFinite = true) {g : Fin n → ℝ}
    {A : Matrix (Fin m) (Fin n) ℝ}
    (hg : p.gradient (Vec.ofReal (r.raised (mux * mu))) = Vec.ofReal g)
    (hA : p.jacobian (Vec.ofReal (r.raised (mux * mu))) = Mat.ofReal A) {y : Fin m → ℝ}
    (hy : minimise.leastSquares n m (Mat.ofReal A)
      (Vec.ofReal (g - fun i => mu / r.raised (mux * mu) i)) = Vec.ofReal y) :
    minimise.finish r.exact p c u =
      ((centralIterate mu (r.raised (mux * mu)) y).exact.evaluate p,
        r.reportAt c.tolerance (State.residuals
          ((centralIterate mu (r.raised (mux * mu)) y).exact.evaluate p) mu).worst) := by
  have hz : (Vec.ofReal (r.raised (mux * mu))).map (fun a => (mu : Exact) / a) =
      Vec.ofReal fun i => mu / r.raised (mux * mu) i := by
    apply Vec.ext
    intro i
    simp [Exact.div_coe mu (hpos i).ne']
  unfold Minimiser.finish
  simp only [hmu, hmux, Exact.mul_coe, r.raise_exact]
  rw [if_pos hfinite]
  simp only [hz, Problem.evaluate, hg, hA, Vec.sub_ofReal, hy]
  rw [centralIterate_exact]
  simp only [Iterate.evaluate, Problem.evaluate, hg, hA]
  rfl

/-- **Where the values are finite, the multipliers are recovered**, whatever rows the Jacobian has. -/
theorem exists_recovery (hleast : Mat.LeavesLeast minimise.leastSquares) (hmupos : 0 < mu)
    (hmuxpos : 0 < mux)
    (hfinite : (p.evaluate (Vec.ofReal (r.raised (mux * mu)))).isFinite = true) :
    ∃ v g h A, r.Recovery c.tolerance mu (minimise.finish r.exact p c u).1
      (minimise.finish r.exact p c u).2 v g h A := by
  have hpos : ∀ i, 0 < r.raised (mux * mu) i := r.raised_pos (mul_pos hmuxpos hmupos)
  obtain ⟨g, h, A, hg, hh, hA⟩ := Evaluation.exists_real hfinite
  obtain ⟨y, hy, hbest⟩ := hleast.exists_least A (g - fun i => mu / r.raised (mux * mu) i)
  have hfinish := finish_of_isFinite minimise r u hmu hmux hpos hfinite hg hA hy
  have hx : (centralIterate mu (r.raised (mux * mu)) y).exact.x = Vec.ofReal (r.raised (mux * mu)) :=
    congrArg Iterate.x (centralIterate_exact mu _ y)
  have hvalues : State.RealValues
      ((centralIterate mu (r.raised (mux * mu)) y).exact.evaluate p) g h A := by
    refine ⟨?_, ?_, ?_⟩
    · exact (congrArg p.gradient hx).trans hg
    · exact (congrArg p.constraint hx).trans hh
    · exact (congrArg p.jacobian hx).trans hA
  have hrecovered := recovered_centralIterate hmupos hpos hvalues hbest
  refine ⟨centralIterate mu (r.raised (mux * mu)) y, g, h, A, ?_⟩
  rw [hfinish, hrecovered.worst_eq]
  exact
    { toRecovered := hrecovered
      error_eq := rfl
      succeeded_iff := beq_iff_eq
      converged_iff := r.status_reportAt_iff _ _
      otherwise := status_reportAt_of_ne }

/-- Where some value is not finite, nothing is recovered. -/
theorem givenUp_finish
    (hfinite : (p.evaluate (Vec.ofReal (r.raised (mux * mu)))).isFinite = false) :
    GivenUp u (minimise.finish r.exact p c u).1 (minimise.finish r.exact p c u).2 := by
  have hfinish : minimise.finish r.exact p c u =
      ({ x := Vec.ofReal (r.raised (mux * mu)), y := u.y, z := u.z,
         values := p.evaluate (Vec.ofReal (r.raised (mux * mu))) },
        { status := .numericFailure, iterations := r.iterations, error := none }) := by
    unfold Minimiser.finish
    simp only [hmu, hmux, Exact.mul_coe, r.raise_exact, hfinite]
    rfl
  rw [hfinish]
  exact ⟨rfl, rfl, rfl, rfl, rfl⟩

/-- Whichever way it finishes, the answer is raised and the problem is evaluated there. -/
theorem finish_raised :
    (minimise.finish r.exact p c u).1.x = Vec.ofReal (r.raised (mux * mu)) ∧
      (minimise.finish r.exact p c u).1.values = p.evaluate (Vec.ofReal (r.raised (mux * mu))) ∧
      (minimise.finish r.exact p c u).2.iterations = r.iterations := by
  unfold Minimiser.finish
  simp only [hmu, hmux, Exact.mul_coe, r.raise_exact]
  split
  · exact ⟨rfl, rfl, rfl⟩
  · exact ⟨rfl, rfl, rfl⟩

end Minimum

/-! ### Solving -/

/-- What there is to say of the state and the summary that an answer `r` leads to, from an iterate `u`,
with the barrier parameter `mu` and the bound `bound`. -/
structure Minimum.Finished (r : Minimum ℝ n) (p : Problem Exact n m) (tolerance : Exact)
    (mu bound : ℝ) (u : Iterate Exact n m) (s : State Exact n m) (report : Report Exact) : Prop where
  x_pos : ∀ i, 0 < max (r.x i) bound
  x_eq : s.x = Vec.ofReal fun i => max (r.x i) bound
  values_eq : s.values = p.evaluate s.x
  iterations_eq : report.iterations = r.iterations
  of_isFinite : s.values.isFinite = true → ∃ v g h A, r.Recovery tolerance mu s report v g h A
  of_not_isFinite : s.values.isFinite = false → GivenUp u s report

theorem Minimum.finished_finish {minimise : Minimiser Exact}
    (hleast : Mat.LeavesLeast minimise.leastSquares) (r : Minimum ℝ n) {p : Problem Exact n m}
    {c : Settings Exact} {mu mux : ℝ} (u : Iterate Exact n m) (hmu : c.mu = mu) (hmux : c.mux = mux)
    (hmupos : 0 < mu) (hmuxpos : 0 < mux) :
    r.Finished p c.tolerance mu (mux * mu) u (minimise.finish r.exact p c u).1
      (minimise.finish r.exact p c u).2 := by
  obtain ⟨hx, hvalues, hiterations⟩ := finish_raised (p := p) minimise r u hmu hmux
  refine ⟨r.raised_pos (mul_pos hmuxpos hmupos), hx, by rw [hvalues, hx], hiterations, ?_, ?_⟩
  · intro hfinite
    rw [hvalues] at hfinite
    exact exists_recovery minimise r u hmu hmux hleast hmupos hmuxpos hfinite
  · intro hfinite
    rw [hvalues] at hfinite
    exact givenUp_finish minimise r u hmu hmux hfinite

/-- **What a minimiser's answer leads to, whatever the answer is.**  With accepted options and a positive
bound on the variables, the answer is raised to an interior point and the problem is evaluated there.  If
the values are finite, the bound multipliers are positive and central, the constraint multipliers leave
the least of the gradient of the Lagrangian, the error is that of stationarity and of the constraints, and
the run counts as converged exactly if the minimiser claims success and the error is below the tolerance.
If they are not, it counts as a failure without an error and with the multipliers of the start. -/
theorem Minimiser.finished_of_solve {minimise : Minimiser Exact}
    (hleast : Mat.LeavesLeast minimise.leastSquares) (p : Problem Exact n m) {o : Options Exact}
    {c : Settings Exact} (ho : o.check = .ok c) (hmux : 0 < o.mux) (s : Start Exact) {r : Minimum ℝ n}
    (hr : minimise.minimum n m p c (s.iterate o.mu o.mux n m).x = r.exact) :
    ∃ (state : State Exact n m) (report : Report Exact) (mu mux : ℝ),
      minimise.solve p o s = .ok (state, report) ∧ o.mu = mu ∧ o.mux = mux ∧ 0 < mux * mu ∧
        r.Finished p o.tolerance mu (mux * mu) (s.iterate o.mu o.mux n m) state report := by
  have hacc := Options.accepted_of_check ho
  obtain ⟨mu, -, hmu, -, hmupos, -, -⟩ := hacc.exists_real
  obtain ⟨mux, hmuxeq, hmuxpos⟩ := Exact.zero_lt_iff.mp hmux
  have hsolve : minimise.solve p o s =
      .ok (minimise.finish r.exact p c (s.iterate o.mu o.mux n m)) := by
    rw [← hr, ← hacc.mu_eq, ← hacc.mux_eq]
    unfold solve
    rw [ho]
    rfl
  refine ⟨_, _, mu, mux, hsolve.trans (congrArg _ (Prod.eta _).symm), hacc.mu_eq ▸ hmu, hmuxeq,
    mul_pos hmuxpos hmupos, ?_⟩
  rw [← hacc.tolerance_eq]
  exact r.finished_finish hleast _ hmu (hacc.mux_eq.trans hmuxeq) hmupos hmuxpos

/-- A minimiser that answers a point out of bounds and claims success. -/
noncomputable def outOfBounds : Minimiser Exact where
  minimum n _ _ _ _ := Minimum.exact ⟨Vec.const n (-1), true, 3⟩
  leastSquares _ _ := Mat.leastSquares

theorem finished_outOfBounds :
    Mat.LeavesLeast outOfBounds.leastSquares ∧ ∃ c,
      (Options.default : Options Exact).check = .ok c ∧ 0 < (Options.default : Options Exact).mux ∧
      outOfBounds.minimum 2 1 shares c (({} : Start Exact).iterate (Options.default : Options Exact).mu
        Options.default.mux 2 1).x = Minimum.exact ⟨Vec.const 2 (-1), true, 3⟩ ∧
      ∃ (state : State Exact 2 1) (report : Report Exact) (mu mux : ℝ),
        outOfBounds.solve shares Options.default {} = .ok (state, report) ∧
          (Options.default : Options Exact).mu = mu ∧ (Options.default : Options Exact).mux = mux ∧
          0 < mux * mu ∧
          (⟨Vec.const 2 (-1), true, 3⟩ : Minimum ℝ 2).Finished shares
            (Options.default : Options Exact).tolerance mu (mux * mu)
            (({} : Start Exact).iterate (Options.default : Options Exact).mu Options.default.mux 2 1)
            state report := by
  obtain ⟨c, hc⟩ := Options.exists_check_default
  exact ⟨Mat.leavesLeast_leastSquares, c, hc, Options.mux_default_pos, rfl,
    Minimiser.finished_of_solve Mat.leavesLeast_leastSquares shares hc Options.mux_default_pos {} rfl⟩

end GibbsNewton.Optimum
