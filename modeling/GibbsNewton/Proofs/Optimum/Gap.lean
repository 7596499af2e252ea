import GibbsNewton.Proofs.Optimum.ConstraintResidual
import GibbsNewton.Proofs.Optimum.Ending

/-!
# How good a converged point is

When the objective lies above its tangents, the multipliers of a converged run are a certificate: the
three residuals bound how much lower the objective can be at any other point that meets the
constraints.  With `g - Aᵀ y - z = r`, the tangent at `x` says

    f x - f x' ≤ g·(x - x') = r·(x - x') + y·(A x - b) + ∑ zᵢ xᵢ - ∑ zᵢ x'ᵢ

and each of the first three terms is small because its residual is, while the last one is not negative
since the bound multipliers are positive along the whole run.

## Main definitions

* `Problem.TangentsBelow` — the objective lies above its tangents on a set of points.
* `Run.NearlyOptimal` — no point with the constraints met has a much lower objective.

## Main results

* `Vec.normInf_ofReal` — the largest magnitude is the supremum norm.
* `gap_le` — the bound in terms of the residuals.
* `Run.OverReals.residuals_lt` — what convergence says about the final iterate.
* `Newton.nearlyOptimal_of_converged` — **a converged run ends nearly optimal.**
-/

namespace GibbsNewton

open Matrix

variable {n m : ℕ}

/-! ### Largest magnitudes -/

/-- A largest magnitude over a real start is the least real number above all. -/
private theorem Vec.foldl_maximum_coe (v : Fin n → ℝ) (a : ℝ) :
    ∃ b : ℝ, Fin.foldl n (fun s i => Scalar.maximum s (Scalar.abs (Vec.ofReal v i))) (a : Exact) = b ∧
      ∀ t, b < t ↔ a < t ∧ ∀ i, |v i| < t := by
  induction n with
  | zero => exact ⟨a, by simp, by simp⟩
  | succ n ih =>
    obtain ⟨b, hb, hlt⟩ := ih fun i => v i.castSucc
    refine ⟨max b |v (Fin.last n)|, ?_, fun t => ?_⟩
    · simp only [Vec.ofReal_apply] at hb ⊢
      rw [Fin.foldl_succ_last, hb, Exact.abs_coe, Exact.maximum_coe]
    · rw [max_lt_iff, hlt, Fin.forall_fin_succ', and_assoc]

theorem Vec.normInf_ofReal_lt_iff {v : Fin n → ℝ} {t : ℝ} :
    (Vec.ofReal v).normInf < (t : Exact) ↔ 0 < t ∧ ∀ i, |v i| < t := by
  obtain ⟨b, hb, hlt⟩ := Vec.foldl_maximum_coe v 0
  rw [normInf, Exact.zero_eq, hb, Exact.coe_lt_coe, hlt]

/-- The largest magnitude of real entries is their supremum norm. -/
theorem Vec.normInf_ofReal (v : Fin n → ℝ) : (Vec.ofReal v).normInf = ((‖v‖ : ℝ) : Exact) := by
  obtain ⟨b, hb⟩ := Exact.isFinite_iff.mp ((Vec.isFinite_normInf _).trans (Vec.isFinite_ofReal v))
  have hlt : ∀ t : ℝ, b < t ↔ 0 < t ∧ ∀ i, |v i| < t := fun t => by
    rw [← Exact.coe_lt_coe, ← hb, Vec.normInf_ofReal_lt_iff]
  rw [hb, Exact.coe_inj]
  -- both numbers are known by what lies above them
  apply eq_of_forall_gt_iff
  intro t
  rw [hlt]
  constructor
  · rintro ⟨hpos, hentries⟩
    exact (pi_norm_lt_iff hpos).mpr hentries
  · intro hnorm
    exact ⟨(norm_nonneg v).trans_lt hnorm, fun i => (norm_le_pi_norm v i).trans_lt hnorm⟩

namespace Optimum

/-! ### The bound -/

/-- A product with a vector of small entries. -/
theorem dotProduct_le_of_abs_lt {k : ℕ} {v w : Fin k → ℝ} {t : ℝ} (h : ∀ i, |v i| < t) :
    v ⬝ᵥ w ≤ t * ∑ i, |w i| := by
  rw [Finset.mul_sum]
  apply Finset.sum_le_sum
  intro i _
  calc v i * w i ≤ |v i| * |w i| := (le_abs_self _).trans_eq (abs_mul _ _)
    _ ≤ t * |w i| := mul_le_mul_of_nonneg_right (h i).le (abs_nonneg _)

/-- **The gap in terms of the residuals.** -/
theorem gap_le {A : Matrix (Fin m) (Fin n) ℝ} {b y : Fin m → ℝ} {g x x' z : Fin n → ℝ} {t mu : ℝ}
    (hz : ∀ i, 0 < z i) (hx' : ∀ i, 0 < x' i) (hA : A *ᵥ x' = b)
    (hstationarity : ∀ i, |(g - Aᵀ *ᵥ y - z) i| < t) (hfeasibility : ∀ j, |(A *ᵥ x - b) j| < t)
    (hcentrality : ∀ i, |x i * z i - mu| < t) :
    g ⬝ᵥ (x - x') ≤ t * (∑ j, |y j| + ∑ i, |x i - x' i| + n) + n * mu := by
  have hsplit : g ⬝ᵥ (x - x') = (g - Aᵀ *ᵥ y - z) ⬝ᵥ (x - x') + (A *ᵥ x - b) ⬝ᵥ y +
      (z ⬝ᵥ x - z ⬝ᵥ x') := by
    have hdual : (Aᵀ *ᵥ y) ⬝ᵥ (x - x') = (A *ᵥ x - b) ⬝ᵥ y := by
      rw [mulVec_transpose, ← dotProduct_mulVec, mulVec_sub, hA, dotProduct_comm]
    rw [sub_dotProduct, sub_dotProduct, hdual, dotProduct_sub z]
    ring
  have hcentral : z ⬝ᵥ x ≤ n * (mu + t) := by
    have hterm : ∀ i, z i * x i ≤ mu + t := by
      intro i
      have hi := (abs_lt.mp (hcentrality i)).2
      rw [mul_comm] at hi
      linarith
    calc z ⬝ᵥ x ≤ ∑ _i : Fin n, (mu + t) := Finset.sum_le_sum fun i _ => hterm i
      _ = n * (mu + t) := by rw [Fin.sum_const, nsmul_eq_mul]
  have hbound : 0 ≤ z ⬝ᵥ x' := Finset.sum_nonneg fun i _ => (mul_pos (hz i) (hx' i)).le
  calc g ⬝ᵥ (x - x')
      = (g - Aᵀ *ᵥ y - z) ⬝ᵥ (x - x') + (A *ᵥ x - b) ⬝ᵥ y + (z ⬝ᵥ x - z ⬝ᵥ x') := hsplit
    _ ≤ t * ∑ i, |(x - x') i| + t * ∑ j, |y j| + n * (mu + t) :=
        add_le_add (add_le_add (dotProduct_le_of_abs_lt hstationarity)
          (dotProduct_le_of_abs_lt hfeasibility)) (by linarith)
    _ = t * (∑ j, |y j| + ∑ i, |x i - x' i| + n) + n * mu := by
        simp only [Pi.sub_apply]
        ring

/-! ### Residuals at real states -/

/-- On the points of `D` the objective is `f`, its gradient is `g`, and the tangents lie below. -/
structure Problem.TangentsBelow (p : Problem Exact n m) (D : Set (Fin n → ℝ)) (f : (Fin n → ℝ) → ℝ)
    (g : (Fin n → ℝ) → Fin n → ℝ) : Prop where
  objective_eq : ∀ x ∈ D, p.objective (Vec.ofReal x) = (f x : Exact)
  gradient_eq : ∀ x ∈ D, p.gradient (Vec.ofReal x) = Vec.ofReal (g x)
  tangent_le : ∀ x ∈ D, ∀ x' ∈ D, f x + g x ⬝ᵥ (x' - x) ≤ f x'

/-- What small residuals say about a real state with its own values. -/
theorem State.IsAt.residuals_lt {p : Problem Exact n m} {A : Matrix (Fin m) (Fin n) ℝ}
    {b : Fin m → ℝ} (hp : p.Affine A b) {s : State Exact n m} {u : Iterate ℝ n m} (hs : s.IsAt u)
    (hvalues : s.values = p.evaluate s.x) {g : Fin n → ℝ}
    (hg : p.gradient (Vec.ofReal ⇑u.x) = Vec.ofReal g) {mu t : ℝ}
    (hstationarity : (s.residuals mu).stationarity < (t : Exact))
    (hfeasibility : (s.residuals mu).feasibility < (t : Exact))
    (hcentrality : (s.residuals mu).centrality < (t : Exact)) :
    (∀ i, |(g - Aᵀ *ᵥ ⇑u.y - ⇑u.z) i| < t) ∧ (∀ j, |(A *ᵥ ⇑u.x - b) j| < t) ∧
      ∀ i, |u.x i * u.z i - mu| < t := by
  have hgradient : s.values.gradient = Vec.ofReal g := by
    rw [hvalues, ← hg, hs.x_eq]
    rfl
  simp only [residuals] at hstationarity hfeasibility hcentrality
  have hjacobian := hp.jacobian_of_isAt hs hvalues
  rw [hs.lagrangian_eq hgradient hjacobian, Vec.normInf_ofReal_lt_iff] at hstationarity
  rw [hp.constraint_of_isAt hs hvalues, Vec.normInf_ofReal_lt_iff] at hfeasibility
  rw [hs.complementarity_eq, Vec.normInf_ofReal_lt_iff] at hcentrality
  exact ⟨hstationarity.2, hfeasibility.2, hcentrality.2⟩

/-! ### Runs -/

/-- A run with options `o` ended at real variables and multipliers which, if the variables are among
the points of `D`, show that no point of `D` with `A x' = b` has an objective lower by more than a
multiple of the tolerance and `n` times the barrier parameter. -/
def Run.NearlyOptimal (r : Run Exact n m) (o : Options Exact) (A : Matrix (Fin m) (Fin n) ℝ)
    (b : Fin m → ℝ) (D : Set (Fin n → ℝ)) (f : (Fin n → ℝ) → ℝ) : Prop :=
  ∃ (u : Iterate ℝ n m) (tol mu : ℝ), r.final.toIterate = u.exact ∧ (∀ i, 0 < u.x i) ∧
    o.tolerance = tol ∧ o.mu = mu ∧
    (⇑u.x ∈ D → ∀ x' ∈ D, A *ᵥ x' = b →
      f ⇑u.x - f x' ≤ tol * (∑ j, |u.y j| + ∑ i, |u.x i - x' i| + n) + n * mu)

/-- **What convergence says about the final iterate**: if its gradient is real, each of the three
residuals is below the tolerance, entry by entry. -/
theorem Run.OverReals.residuals_lt {p : Problem Exact n m} {A : Matrix (Fin m) (Fin n) ℝ}
    {b : Fin m → ℝ} (hp : p.Affine A b) {o : Options Exact} {c : Settings Exact} (hacc : o.Accepted c)
    {r : Run Exact n m} (hr : r.OverReals p c) (hstatus : r.report.status = .converged)
    {u : Iterate ℝ n m} (hu : r.final.IsAt u) :
    ∃ tol mu : ℝ, o.tolerance = tol ∧ o.mu = mu ∧
      ∀ g, p.gradient (Vec.ofReal ⇑u.x) = Vec.ofReal g →
        (∀ i, |(g - Aᵀ *ᵥ ⇑u.y - ⇑u.z) i| < tol) ∧ (∀ j, |(A *ᵥ ⇑u.x - b) j| < tol) ∧
          ∀ i, |u.x i * u.z i - mu| < tol := by
  obtain ⟨mu, tau, hmu, htau, -, -, -⟩ := hacc.exists_real
  have hconverged : r.EndsConverged p c := by
    have houtcome := hr.course.outcome (hr.values_eq _ r.start_mem_visited)
      (by have := hacc.one_le; have := hacc.maxIterations_eq; omega)
      (Exact.isFinite_of_lt_right hacc.mu_pos) (Exact.isFinite_of_lt_right hacc.tau_pos)
    simpa only [Run.Outcome, hstatus] using houtcome
  -- a passed test is a comparison with a real tolerance
  obtain ⟨tol, htol⟩ := Exact.isFinite_iff.mp (Exact.isFinite_of_lt_right hconverged.worst_lt)
  refine ⟨tol, mu, hacc.tolerance_eq ▸ htol, hacc.mu_eq ▸ hmu, fun g hg => ?_⟩
  have hstationarity := hconverged.stationarity_lt
  have hfeasibility := hconverged.feasibility_lt
  have hcentrality := hconverged.centrality_lt
  rw [htol, hmu] at hstationarity hfeasibility hcentrality
  exact hu.residuals_lt hp hconverged.values_eq hg hstationarity hfeasibility hcentrality

/-- **A converged run ends nearly optimal**, among the positive points on which the objective lies above
its tangents. -/
theorem Newton.nearlyOptimal_of_converged (w : Newton Exact) {p : Problem Exact n m}
    {A : Matrix (Fin m) (Fin n) ℝ} {b : Fin m → ℝ} (hp : p.Affine A b) {D : Set (Fin n → ℝ)}
    (hD : ∀ x ∈ D, ∀ i, 0 < x i) {f : (Fin n → ℝ) → ℝ} {g : (Fin n → ℝ) → Fin n → ℝ}
    (hf : p.TangentsBelow D f g) {o : Options Exact} {c : Settings Exact} (ho : o.check = .ok c)
    (hmux : 0 < o.mux) (s : Start ℝ) :
    ∃ run w', w.solve p o s.exact = .ok (run, w') ∧
      run.start = (s.exact.iterate o.mu o.mux n m).evaluate p ∧
      (run.report.status = .converged → run.NearlyOptimal o A b D f) := by
  obtain ⟨run, w', hw', hstart, hrun⟩ := w.overReals_of_solve p ho hmux s
  refine ⟨run, w', hw', hstart, fun hstatus => ?_⟩
  obtain ⟨u, hu⟩ := hrun.exists_isAt _ run.final_mem_visited
  obtain ⟨tol, mu, htol, hmu, hresiduals⟩ :=
    hrun.residuals_lt hp (Options.accepted_of_check ho) hstatus hu
  refine ⟨u, tol, mu, hu.iterate_eq, hu.x_pos, htol, hmu, fun hx x' hx' hfeasible => ?_⟩
  obtain ⟨hs, hr, hk⟩ := hresiduals _ (hf.gradient_eq _ hx)
  have hgap := gap_le hu.z_pos (hD x' hx') hfeasible hs hr hk
  have htangent := hf.tangent_le _ hx x' hx'
  rw [← neg_sub, dotProduct_neg] at htangent
  linarith

end Optimum

end GibbsNewton
