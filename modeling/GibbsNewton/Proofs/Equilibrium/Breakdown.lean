import GibbsNewton.Proofs.Equilibrium.Session
import GibbsNewton.Proofs.Optimum.Feasibility

/-!
# When equilibrium calculations break down

At every state that a run on an equilibrium problem visits, the Newton system can be solved exactly
when the rows of the formula matrix are independent, and the values after a step are always finite.
So the run either never breaks down, whatever its length, or it breaks down in its first iteration,
before anything has moved; and which of the two is decided by the formula matrix alone.  With the true
second derivatives this is known of runs that stay above the floor.

## Main definitions

* `Run.FailsIffDependent` — a run breaks down, at once, exactly when rows are dependent.
* `Run.StaysAbove` — a run stays above the floor.

## Main results

* `MixtureProblem.failsIffDependent` — the dichotomy for every run through real states.
* `Session.failsIffDependent_of_solve` — **equilibrium calculations break down exactly when the rows of
  the formula matrix are dependent.**
-/

namespace GibbsNewton

open Matrix

variable {n m : ℕ}

/-- A run breaks down exactly when the rows of `W` are dependent, as they are when there are more of
them than columns; and then it does so in its first iteration, at the state that it started from. -/
structure Optimum.Run.FailsIffDependent (r : Run Exact n m) (W : Matrix (Fin m) (Fin n) ℝ) : Prop where
  never : LinearIndependent ℝ W.row → r.report.status ≠ .numericFailure
  at_once : ¬LinearIndependent ℝ W.row ∨ n < m →
    r.report.status = .numericFailure ∧ r.report.iterations = 1 ∧ r.final = r.start

/-- Every amount at every state that a run visits is above a floor. -/
def Optimum.Run.StaysAbove (r : Run Exact n m) (floor : ℝ) : Prop :=
  ∀ t ∈ r.visited, ∀ i, (floor : Exact) < t.x i

/-- More rows than columns are dependent. -/
theorem not_linearIndependent_row_of_lt (W : Matrix (Fin m) (Fin n) ℝ) (h : n < m) :
    ¬LinearIndependent ℝ W.row := by
  intro hW
  have hcard := hW.fintype_card_le_finrank
  rw [Fintype.card_fin, Module.finrank_fin_fun] at hcard
  omega

namespace Equilibrium

/-! ### Runs -/

namespace MixtureProblem

variable {P : MixtureProblem n m}

/-- **A run through real states breaks down at once or not at all.** -/
theorem failsIffDependent (hP : 0 < P.mixture.pressure) {scheme : Scheme}
    {c : Optimum.Settings Exact} {mu : ℝ} (hmu : c.mu = mu) (hmax : 1 ≤ c.maxIterations)
    {r : Optimum.Run Exact n m} (hr : r.OverReals (P.exact.optimum scheme) c)
    (hscheme : scheme.IgnoresFloor ∨ r.StaysAbove P.mixture.floor) :
    r.FailsIffDependent P.formula.toMatrix := by
  have hdirection : ∀ t ∈ r.visited, (P.exact.optimum scheme).newton? c t ≠ none ↔
      LinearIndependent ℝ P.formula.toMatrix.row := by
    intro t ht
    obtain ⟨u, hu⟩ := hr.exists_isAt t ht
    have hfits : scheme.Fits P.mixture ⇑u.x := by
      refine hscheme.imp_right fun habove i => ⟨hu.x_pos i, ?_⟩
      simpa [hu.x_eq] using habove t ht i
    exact newton?_ne_none_iff hP hmu hu (hr.values_eq t ht) (Mixture.seen_pos hu.x_pos) hfits
  have hfinite : ∀ t ∈ r.visited, t.values.isFinite = true := by
    intro t ht
    obtain ⟨u, hu⟩ := hr.exists_isAt t ht
    rw [hr.values_eq t ht, hu.x_eq]
    exact isFinite_evaluate_optimum hP scheme (Mixture.seen_pos hu.x_pos)
  have hfails := hr.course.failsWhere (D := fun _ => ¬LinearIndependent ℝ P.formula.toMatrix.row)
    (fun t ht => (hdirection t ht).trans not_not.symm) hfinite
  obtain ⟨hcourse, -, -⟩ := hr
  constructor
  · intro hW hstatus
    obtain ⟨-, -, hdependent⟩ := hfails.failed_iff.mp hstatus
    exact hdependent hW
  · intro hdependent
    have hW : ¬LinearIndependent ℝ P.formula.toMatrix.row :=
      hdependent.elim id (not_linearIndependent_row_of_lt _)
    obtain ⟨left, hleft⟩ := Nat.exists_eq_add_of_le' hmax
    have hnone : (P.exact.optimum scheme).newton? c r.start = none := by
      by_contra hsome
      exact hW ((hdirection _ r.start_mem_visited).mp hsome)
    rw [hleft] at hcourse
    obtain ⟨start, us, e⟩ := r
    obtain ⟨rfl, rfl⟩ := hcourse.of_newton?_eq_none hnone
    exact ⟨rfl, rfl, rfl⟩

/-- The runs of a solver that are known to break down at once or not at all: all of them with the second
derivatives without the floor, and with the true ones those that stay above it. -/
theorem failsIffDependent_of_newton (hP : 0 < P.mixture.pressure) (scheme : Scheme)
    (w : Optimum.Newton Exact) {o : Optimum.Options Exact} {c : Optimum.Settings Exact}
    (ho : o.check = .ok c) (hmux : 0 < o.mux) (s : Optimum.Start ℝ) :
    ∃ run w', w.solve (P.exact.optimum scheme) o s.exact = .ok (run, w') ∧
      run.start = (s.exact.iterate o.mu o.mux n m).evaluate (P.exact.optimum scheme) ∧
      (scheme.IgnoresFloor ∨ run.StaysAbove P.mixture.floor →
        run.FailsIffDependent P.formula.toMatrix) := by
  obtain ⟨run, w', hw', hstart, hrun⟩ := w.overReals_of_solve (P.exact.optimum scheme) ho hmux s
  have hacc := Optimum.Options.accepted_of_check ho
  obtain ⟨mu, -, hmu, -, -, -, -⟩ := hacc.exists_real
  have hmax : 1 ≤ c.maxIterations := by
    have hone := hacc.one_le
    have heq := hacc.maxIterations_eq
    omega
  exact ⟨run, w', hw', hstart, failsIffDependent hP hmu hmax hrun⟩

end MixtureProblem

/-! ### Sessions -/

namespace Session

/-- **Equilibrium calculations break down exactly when the rows of the formula matrix are dependent.**
This holds of every run of a solver on the optimisation problem, whatever its options, and of what a
session answers with the options that go with the choice of second derivatives. -/
theorem failsIffDependent_of_solve (minimise : Optimum.Minimiser Exact) {P : MixtureProblem n m}
    (hphases : ∀ q ∈ P.mixture.phases, q.species ≠ []) (hP : 0 < P.mixture.pressure) :
    (∀ (scheme : Scheme) (w : Optimum.Newton Exact) (o : Optimum.Options Exact)
        (c : Optimum.Settings Exact) (s : Optimum.Start ℝ), o.check = .ok c → 0 < o.mux →
      ∃ run w', w.solve (P.exact.optimum scheme) o s.exact = .ok (run, w') ∧
        run.start = (s.exact.iterate o.mu o.mux n m).evaluate (P.exact.optimum scheme) ∧
        (scheme.IgnoresFloor ∨ run.StaysAbove P.mixture.floor →
          run.FailsIffDependent P.formula.toMatrix)) ∧
    ∀ (w : Session Exact) (o : Options Exact) (scheme : Scheme) (c : Optimum.Settings Exact)
        (s : Optimum.Start ℝ), o.check = .ok (scheme, .newton) → o.feasibility = false →
      o.paired.check = .ok c → 0 < o.optimum.mux → w.start o.warmstart = s.exact →
      ∃ (run : Optimum.Run Exact n m) (newton : Optimum.Newton Exact),
        w.solve minimise P.exact o = (.ok (), { w with
          newton
          result := { w.result with point := run.final.toStart, optimum := run.report } }) ∧
        run.start =
          (s.exact.iterate o.paired.mu o.paired.mux n m).evaluate (P.exact.optimum scheme) ∧
        (scheme.IgnoresFloor ∨ run.StaysAbove P.mixture.floor →
          run.FailsIffDependent P.formula.toMatrix) := by
  constructor
  · intro scheme w o c s ho hmux
    exact MixtureProblem.failsIffDependent_of_newton hP scheme w ho hmux s
  · intro w o scheme c s ho hfeasibility hc hmux hs
    have hevaluable := MixtureProblem.isEvaluable_exact hphases
    rw [← o.mux_paired] at hmux
    obtain ⟨run, newton, hrun, hstart, hfails⟩ :=
      MixtureProblem.failsIffDependent_of_newton hP scheme w.newton hc hmux s
    rw [← hs] at hrun
    exact ⟨run, newton, w.solve_eq_ok minimise hevaluable ho hfeasibility hc hrun, hstart, hfails⟩

end Session

/-- One gas that must hold two elements in equal amounts, so that one of the balances is to spare. -/
noncomputable def redundant : MixtureProblem 1 2 where
  formula := Mat.of fun _ _ => 1
  amounts := Vec.of fun _ => 1
  mixture := {
    standard := Vec.of fun _ => 0
    pressure := (100000 : ℕ)
    floor := 1 / (10 : ℕ) ^ 50
    phases := [{ name := "gas", kind := "gas", species := List.finRange 1 }]
    partition := by decide }

/-- The options of a calculation without the floor. -/
noncomputable def floorless : Options Exact := { Options.default with hessian := "approximation" }

/-- The isomers never break a calculation down, and the gas with a balance to spare does at once. -/
theorem Session.failsIffDependent_of_solve_isomers :
    (∃ (run : Optimum.Run Exact 2 1) (newton : Optimum.Newton Exact),
      ({} : Session Exact).solve Optimum.centralPath isomers.exact floorless = (.ok (), {
        newton, result := { point := run.final.toStart, optimum := run.report } }) ∧
      run.report.status ≠ .numericFailure) ∧
    ∃ (run : Optimum.Run Exact 1 2) (newton : Optimum.Newton Exact),
      ({} : Session Exact).solve Optimum.centralPath redundant.exact floorless = (.ok (), {
        newton, result := { point := run.final.toStart, optimum := run.report } }) ∧
      run.report.status = .numericFailure ∧ run.report.iterations = 1 ∧ run.final = run.start := by
  obtain ⟨c, hc⟩ := Optimum.Options.exists_check_default
  have hchoice : floorless.check = .ok (.approximation, .newton) := by
    have hscheme : Scheme.ofName? "approximation" = some .approximation := by decide
    have hmethod : Method.ofName? "ipnewton" = some .newton := by decide
    simp [floorless, Options.default, Options.check, hscheme, hmethod]
  have hpaired : floorless.paired = .default := by
    have hdiagonal : Options.asksDiagonal "approximation" = false := by decide
    simp [floorless, Options.default, Options.paired, hdiagonal, Optimum.HessianScheme.name,
      Optimum.Options.default]
  rw [← hpaired] at hc
  have hmux := Optimum.Options.mux_default_pos
  constructor
  · obtain ⟨-, hsession⟩ := failsIffDependent_of_solve (P := isomers) Optimum.centralPath
      (by simp [isomers]) (by norm_num [isomers])
    obtain ⟨run, newton, hsolve, -, hfails⟩ :=
      hsession {} floorless .approximation c {} hchoice rfl hc hmux rfl
    exact ⟨run, newton, hsolve, (hfails (.inl (.inl rfl))).never linearIndependent_row_isomers⟩
  · obtain ⟨-, hsession⟩ := failsIffDependent_of_solve (P := redundant) Optimum.centralPath
      (by simp [redundant]) (by norm_num [redundant])
    obtain ⟨run, newton, hsolve, -, hfails⟩ :=
      hsession {} floorless .approximation c {} hchoice rfl hc hmux rfl
    exact ⟨run, newton, hsolve, (hfails (.inl (.inl rfl))).at_once (.inr (by decide))⟩

end Equilibrium

end GibbsNewton
