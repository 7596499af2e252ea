import GibbsNewton.Proofs.Equilibrium.MassAction
import GibbsNewton.Proofs.Optimum.Feasibility

/-!
# Searches of a session

The search that a session makes for a feasible point is a search on the optimisation problem of the
equilibrium problem.  Its Jacobian is the formula matrix at every state, so with independent rows the
search finds a direction wherever it gets to and never fails.  The model has no part in it: a search
is made with any one, even where its energy cannot be evaluated.

## Main results

* `Problem.status_ne_of_searches` — with independent rows a search never fails.
* `Session.exists_searches` — **searches fail exactly where the rows of the Jacobian are dependent, and
  those of a session with an independent formula matrix never do.**
-/

namespace GibbsNewton.Equilibrium

variable {n m : ℕ}

/-- With independent rows a search never fails. -/
theorem Problem.status_ne_of_searches {p : Problem Exact n m} {W : Matrix (Fin m) (Fin n) ℝ}
    (hW : p.formula = Mat.ofReal W) (hrow : LinearIndependent ℝ W.row) {scheme : Scheme}
    {o : Optimum.Options Exact} {s : Optimum.Start ℝ} {c : Optimum.Settings Exact}
    {run : Optimum.Run Exact n m} (h : run.Searches (p.optimum scheme) o s c) :
    run.report.status ≠ .numericFailure := by
  intro hstatus
  obtain ⟨t, -, hdependent⟩ := h.failsWhere.failed_iff.mp hstatus
  change p.formula.DependentRows at hdependent
  rw [hW, Mat.dependentRows_ofReal_iff] at hdependent
  exact hdependent hrow

/-- **Searches fail exactly where the rows of the Jacobian are dependent**: those of every solver, for
every problem with finite constraints.  A session keeps the search on its equilibrium problem, which
never fails if the rows of the formula matrix are independent, whatever the model is. -/
theorem Session.exists_searches :
    (∀ {n m : ℕ} (p : Optimum.Problem Exact n m) (o : Optimum.Options Exact) (s : Optimum.Start ℝ),
      p.FiniteConstraints → o.Bounded → 0 < o.mux →
      ∃ (run : Optimum.Run Exact n m) (c : Optimum.Settings Exact), run.Searches p o s c) ∧
    ∀ {n m : ℕ} (p : Problem Exact n m) (W : Matrix (Fin m) (Fin n) ℝ) (b : Fin m → ℝ)
        (w : Session Exact) (o : Options Exact) (scheme : Scheme) (method : Method)
        (s : Optimum.Start ℝ),
      p.formula = Mat.ofReal W → p.amounts = Vec.ofReal b → LinearIndependent ℝ W.row →
      o.check = .ok (scheme, method) → o.optimum.Bounded → 0 < o.optimum.mux →
      w.start o.warmstart = s.exact →
      ∃ (run : Optimum.Run Exact n m) (c : Optimum.Settings Exact) (feasible : Optimum.Newton Exact),
        run.Searches (p.optimum scheme) o.paired s c ∧ run.report.status ≠ .numericFailure ∧
        w.findFeasible p o = .ok { w with
          feasible
          result := { w.result with
            point := run.final.toStart
            feasibility := some run.report } } := by
  constructor
  · intro n m p o s hp ho hmux
    exact Optimum.Newton.exists_search p hp ho hmux s
  · intro n m p W b w o scheme method s hW hb hrow hchoice ho hmux hs
    rw [← o.bounded_paired] at ho
    rw [← o.mux_paired] at hmux
    obtain ⟨run, c, hrun⟩ := Optimum.Newton.exists_search (p.optimum scheme)
      (Problem.affine_of_balance hW hb scheme).finiteConstraints ho hmux s
    obtain ⟨feasible, hfeasible⟩ := hrun.isSearch w.feasible (p.optimum scheme).objective
      (p.optimum scheme).gradient (p.optimum scheme).hessian o.paired.hessian o.paired.kkt
    rw [← hs] at hfeasible
    exact ⟨run, c, feasible, hrun, Problem.status_ne_of_searches hW hrow hrun,
      w.findFeasible_eq_of_run p hchoice hfeasible⟩

/-- A search for shares of a whole, and one for amounts of the isomers by a session that has calculated
nothing yet. -/
theorem Session.exists_searches_isomers :
    (∃ (run : Optimum.Run Exact 2 1) (c : Optimum.Settings Exact),
      run.Searches Optimum.shares .default {} c) ∧
    ∃ (run : Optimum.Run Exact 2 1) (c : Optimum.Settings Exact) (feasible : Optimum.Newton Exact),
      run.Searches (isomers.exact.optimum .exact) (Options.default : Options Exact).paired {} c ∧
      run.report.status ≠ .numericFailure ∧
      ({} : Session Exact).findFeasible isomers.exact .default = .ok {
        feasible
        result := { point := run.final.toStart, feasibility := some run.report } } := by
  obtain ⟨hsolver, hsession⟩ := Session.exists_searches
  obtain ⟨c, hc⟩ := Optimum.Options.exists_check_default
  obtain ⟨-, -, hbounded⟩ := Optimum.Options.exists_check_iff.mp ⟨c, hc⟩
  constructor
  · exact hsolver Optimum.shares .default {} Optimum.affine_shares.finiteConstraints hbounded
      Optimum.Options.mux_default_pos
  · exact hsession isomers.exact isomers.formula.toMatrix ⇑isomers.amounts {} .default .exact .newton {}
      rfl rfl linearIndependent_row_isomers Options.check_default hbounded
      Optimum.Options.mux_default_pos rfl

end GibbsNewton.Equilibrium
