import GibbsNewton.Proofs.Equilibrium.NearOptimal
import GibbsNewton.Proofs.Equilibrium.Session

/-!
# The law of mass action

A reaction `v` turns species into each other without changing the amount of any element, `W v = 0`.  In
equilibrium the chemical potentials of its species balance, `∑ vᵢ (uᵢ + ln activityᵢ) = 0`.  A converged
calculation is as close to this as its residuals allow: with `g - Wᵀ y - z = r` the multipliers of the
elements drop out of

    v·g = v·r + (W v)·y + v·z = ∑ vᵢ (rᵢ + zᵢ)

and what remains of each bound multiplier is at most `(mu + tolerance) / aᵢ`, because the product of an
amount and its multiplier is close to the barrier parameter.

## Main definitions

* `MixtureProblem.MassAction` — reactions and element balances are met up to a tolerance and a barrier parameter.

## Main results

* `abs_affinity_le` — what the residuals leave of a reaction's affinity.
* `Session.massAction_of_solve` — **a calculation that succeeds obeys the law of mass action.**
-/

namespace GibbsNewton

open Matrix

variable {n m : ℕ}

/-- **The affinity of a reaction** is at most what the residuals and the bound multipliers leave of it. -/
theorem abs_affinity_le {W : Matrix (Fin m) (Fin n) ℝ} {y : Fin m → ℝ} {g x z v : Fin n → ℝ}
    {t mu : ℝ} (hx : ∀ i, 0 < x i) (hz : ∀ i, 0 < z i)
    (hstationarity : ∀ i, |(g - Wᵀ *ᵥ y - z) i| < t) (hcentrality : ∀ i, |x i * z i - mu| < t)
    (hv : W *ᵥ v = 0) : |∑ i, v i * g i| ≤ ∑ i, |v i| * (t + (mu + t) / x i) := by
  set r := g - Wᵀ *ᵥ y - z with hr
  have helements : v ⬝ᵥ (Wᵀ *ᵥ y) = 0 := by
    rw [dotProduct_mulVec, vecMul_transpose, hv, zero_dotProduct]
  have hsplit : v ⬝ᵥ g = v ⬝ᵥ (r + z) := by
    have hg : g = Wᵀ *ᵥ y + (r + z) := by
      rw [hr]
      abel
    rw [hg, dotProduct_add, helements, zero_add]
  have hmultiplier : ∀ i, z i ≤ (mu + t) / x i := by
    intro i
    rw [le_div_iff₀ (hx i), mul_comm]
    linarith [(abs_lt.mp (hcentrality i)).2]
  calc |∑ i, v i * g i| = |∑ i, v i * (r i + z i)| := congrArg abs hsplit
    _ ≤ ∑ i, |v i * (r i + z i)| := Finset.abs_sum_le_sum_abs _ _
    _ ≤ ∑ i, |v i| * (t + (mu + t) / x i) := by
        apply Finset.sum_le_sum
        intro i _
        rw [abs_mul]
        apply mul_le_mul_of_nonneg_left _ (abs_nonneg _)
        calc |r i + z i| ≤ |r i| + |z i| := abs_add_le _ _
          _ ≤ t + (mu + t) / x i := by
              rw [abs_of_pos (hz i)]
              exact add_le_add (hstationarity i).le (hmultiplier i)

namespace Equilibrium

/-- At the amounts `a` the affinity of every reaction is small, and so is what the balance of every
element is out by. -/
structure MixtureProblem.MassAction (P : MixtureProblem n m) (tol mu : ℝ) (a : Fin n → ℝ) : Prop where
  affinity_le : ∀ v, P.formula.toMatrix *ᵥ v = 0 →
    |∑ i, v i * (P.mixture.standard i + P.mixture.activity a i)| ≤
      ∑ i, |v i| * (tol + (mu + tol) / a i)
  balance_lt : ∀ j, |(P.formula.toMatrix *ᵥ a - ⇑P.amounts) j| < tol

/-- **A calculation that succeeds obeys the law of mass action.**  A session with accepted options, whose
last result is made of real numbers, answers a result of real numbers, whether it searches for a
feasible point first or not; and if the calculation succeeded with every amount above the floor, the
reactions and the elements are balanced up to the tolerance and the barrier parameter. -/
theorem Session.massAction_of_solve (minimise : Optimum.Minimiser Exact) {P : MixtureProblem n m}
    (hphases : ∀ q ∈ P.mixture.phases, q.species ≠ []) (hP : 0 < P.mixture.pressure)
    (w : Session Exact) {s : Optimum.Start ℝ} (hs : w.result.point = s.exact) {o : Options Exact}
    {scheme : Scheme} (ho : o.check = .ok (scheme, .newton)) {c : Optimum.Settings Exact}
    (hc : o.paired.check = .ok c) (hmux : 0 < o.optimum.mux) :
    ∃ (w' : Session Exact) (u : Optimum.Iterate ℝ n m),
      w.solve minimise P.exact o = (.ok (), w') ∧ w'.result.point = u.toStart.exact ∧
      (w'.result.optimum.succeeded = true → (∀ i, P.mixture.floor < u.x i) →
        P.mixture.exact.logActivities (Vec.ofReal ⇑u.x) = Vec.ofReal (P.mixture.activity ⇑u.x) ∧
        ∃ tol mu : ℝ, o.optimum.tolerance = tol ∧ o.optimum.mu = mu ∧
          P.MassAction tol mu ⇑u.x) := by
  obtain ⟨run, w', hw', hrun, hpoint, hreport⟩ :=
    w.overReals_of_solve minimise hphases ho hc hmux hs
  obtain ⟨u, hu⟩ := hrun.exists_isAt _ run.final_mem_visited
  refine ⟨w', u, hw', by rw [hpoint, hu.iterate_eq, u.toStart_exact], fun hsucceeded hfloor => ?_⟩
  have hstatus : run.report.status = .converged := by
    rw [← hreport]
    exact beq_iff_eq.mp hsucceeded
  obtain ⟨tol, mu, htol, hmu, hresiduals⟩ := hrun.residuals_lt (P.affine_optimum scheme)
    (Optimum.Options.accepted_of_check hc) hstatus hu
  -- above the floor the gradient is the chemical potential
  have habove : P.mixture.Above ⇑u.x := fun i => ⟨hu.x_pos i, hfloor i⟩
  obtain ⟨hstationarity, hbalance, hcentrality⟩ :=
    hresiduals _ ((MixtureProblem.tangentsBelow_optimum hP scheme).gradient_eq _ habove)
  refine ⟨Mixture.logActivities_ofReal (Mixture.seen_pos hu.x_pos) hP, tol, mu,
    o.tolerance_paired ▸ htol, o.mu_paired ▸ hmu, fun v hv => ?_, hbalance⟩
  exact abs_affinity_le hu.x_pos hu.z_pos hstationarity hcentrality hv

/-! ### Two isomers -/

theorem Options.check_default : (Options.default : Options Exact).check = .ok (.exact, .newton) := by
  have hscheme : Scheme.ofName? "exact" = some .exact := by decide
  have hmethod : Method.ofName? "ipnewton" = some .newton := by decide
  simp [Options.default, Options.check, hscheme, hmethod]

theorem Options.paired_default : (Options.default : Options Exact).paired = .default := by
  have hdiagonal : asksDiagonal "exact" = false := by decide
  simp [Options.default, Options.paired, hdiagonal, Optimum.HessianScheme.name,
    Optimum.Options.default]

/-- The isomers turn into each other until there is as much of the one as of the other. -/
theorem Session.massAction_of_solve_isomers :
    ∃ (w' : Session Exact) (u : Optimum.Iterate ℝ 2 1),
      ({ result := { point := (isomersBalanced (1 / 10 ^ 20)).toStart.exact } } : Session Exact).solve
          Optimum.centralPath isomers.exact .default = (.ok (), w') ∧
        w'.result.point = u.toStart.exact ∧ w'.result.optimum.succeeded = true ∧
        (∀ i, isomers.mixture.floor < u.x i) ∧ isomers.formula.toMatrix *ᵥ ![1, -1] = 0 ∧
        ∃ tol mu : ℝ, (Options.default : Options Exact).optimum.tolerance = tol ∧
          (Options.default : Options Exact).optimum.mu = mu ∧ isomers.MassAction tol mu ⇑u.x := by
  set w : Session Exact := { result := { point := (isomersBalanced (1 / 10 ^ 20)).toStart.exact } }
  obtain ⟨c, hc⟩ := Optimum.Options.exists_check_default
  rw [← Options.paired_default] at hc
  have hphases : ∀ q ∈ isomers.mixture.phases, q.species ≠ [] := by simp [isomers]
  obtain ⟨w', u, hw', hpoint, hlaw⟩ := w.massAction_of_solve Optimum.centralPath hphases
    (by norm_num [isomers]) rfl Options.check_default hc Optimum.Options.mux_default_pos
  -- the run that the session makes is the one that stays at the balanced amounts
  obtain ⟨run, newton, hrun, hstatus, hfinal⟩ := solve_isomersBalanced (Options.paired_default ▸ hc)
  have hsolve := w.solve_eq_ok Optimum.centralPath (MixtureProblem.isEvaluable_exact hphases)
    Options.check_default rfl hc (by rw [Options.paired_default]; exact hrun)
  obtain rfl := (Prod.mk.inj (hsolve.symm.trans hw')).2
  have hsucceeded : run.report.succeeded = true := beq_iff_eq.mpr hstatus
  have hx : ∀ i, u.x i = 1 := by
    have hsame : u.toStart.exact = (isomersBalanced (1 / 10 ^ 20)).toStart.exact := by
      rw [← hpoint, ← Optimum.Iterate.toStart_exact, ← hfinal]
    obtain rfl := Optimum.Iterate.eq_of_toStart_exact hsame
    simp [isomersBalanced]
  have hfloor : ∀ i, isomers.mixture.floor < u.x i := by
    intro i
    rw [hx i]
    norm_num [isomers]
  obtain ⟨-, tol, mu, htol, hmu, hmass⟩ := hlaw hsucceeded hfloor
  refine ⟨_, u, hsolve, hpoint, hsucceeded, hfloor, ?_, tol, mu, htol, hmu, hmass⟩
  funext j
  simp [isomers, mulVec, dotProduct]

end Equilibrium

end GibbsNewton
