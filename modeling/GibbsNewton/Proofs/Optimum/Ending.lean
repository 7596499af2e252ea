import GibbsNewton.Proofs.Optimum.Interior

/-!
# How runs end

A run has three ways out of its loop, at three places of an iteration, and each leaves the counter,
the reported error, the cached values and the state in a relation of its own.  These relations are
spelled out here, one structure for each outcome, and derived from the course of the run.

## Main definitions

* `Run.EndsConverged`, `Run.EndsAtLimit`, `Run.EndsFailed` — what is known of a run with each outcome.
* `Run.Outcome` — what is known of a run by its reported status.

## Main results

* `Run.error_eq` — the reported error is that of the last state updated, or there is none yet.
* `Course.endsConverged`, `Course.endsAtLimit`, `Course.endsFailed` — the outcomes of a course.
* `Newton.outcome_of_solve` — **a solver answers a run of at most so many moves, with one of the three
  outcomes**.
-/

namespace GibbsNewton.Optimum

variable {n m : ℕ}

/-! ### Outcomes -/

/-- The run converged: its last state, and no earlier one, is finite and passes the test. -/
structure Run.EndsConverged (r : Run Exact n m) (p : Problem Exact n m) (c : Settings Exact) :
    Prop where
  one_le_iterations : 1 ≤ r.report.iterations
  iterations_le : r.report.iterations ≤ c.maxIterations
  moves_eq : r.moves = r.report.iterations
  values_eq : r.final.values = p.evaluate r.final.x
  isFinite_values : r.final.values.isFinite = true
  error_eq : r.report.error = some (r.final.residuals c.mu).worst
  worst_lt : (r.final.residuals c.mu).worst < c.tolerance
  stationarity_lt : (r.final.residuals c.mu).stationarity < c.tolerance
  feasibility_lt : (r.final.residuals c.mu).feasibility < c.tolerance
  centrality_lt : (r.final.residuals c.mu).centrality < c.tolerance
  not_worst_lt_of_mem : ∀ u ∈ r.updates.dropLast,
    ¬ (u.state.residuals c.mu).worst < c.tolerance

/-- The run used up its iterations: each made an update, and none of the states passes the test. -/
structure Run.EndsAtLimit (r : Run Exact n m) (p : Problem Exact n m) (c : Settings Exact) :
    Prop where
  iterations_eq : r.report.iterations = c.maxIterations + 1
  length_updates : r.updates.length = c.maxIterations
  moves_eq : r.moves = c.maxIterations
  values_eq : r.final.values = p.evaluate r.final.x
  error_eq : r.report.error = some (r.final.residuals c.mu).worst
  not_worst_lt : ¬ (r.final.residuals c.mu).worst < c.tolerance

/-- The run failed in iteration `k`, where `prev` is the state that the `k - 1` iterations before left.
Either there was no direction to go, and the run is still there; or it went on to a state with values
that are not all finite.  The reported error is that of `prev` in both cases. -/
structure Run.EndsFailed (r : Run Exact n m) (p : Problem Exact n m) (c : Settings Exact)
    (prev : State Exact n m) : Prop where
  one_le_iterations : 1 ≤ r.report.iterations
  iterations_le : r.report.iterations ≤ c.maxIterations
  visited_eq : r.visited[r.report.iterations - 1]? = some prev
  values_eq : prev.values = p.evaluate prev.x
  error_eq : r.report.error =
    if r.report.iterations = 1 then none else some (prev.residuals c.mu).worst
  either : p.newton? c prev = none ∧ r.final = prev ∧ r.moves = r.report.iterations - 1 ∨
    p.Follows c prev r.final ∧ r.final.values = p.evaluate r.final.x ∧
      r.final.values.isFinite = false ∧ r.moves = r.report.iterations

/-- What is known of a run by its reported status. -/
def Run.Outcome (r : Run Exact n m) (p : Problem Exact n m) (c : Settings Exact) : Prop :=
  match r.report.status with
  | .running => False
  | .converged => r.EndsConverged p c
  | .iterationLimit => r.EndsAtLimit p c
  | .numericFailure => ∃ prev, r.EndsFailed p c prev

/-! ### The reported error -/

namespace Run

theorem lastUpdated_concat (s : State Exact n m) (us : List (Update Exact n m))
    (u : Update Exact n m) (e : Ending Exact n m) :
    (⟨s, us ++ [u], e⟩ : Run Exact n m).lastUpdated = u.state := by
  unfold lastUpdated
  rw [List.getLast?_concat]
  rfl

/-- The reported error is that of the last state updated, as long as no update notes residuals other
than those of its state. -/
theorem error_eq (r : Run Exact n m) {mu : Exact}
    (h : ∀ u ∈ r.updates, u.residuals = u.state.residuals mu) :
    r.report.error =
      if r.updates.length = 0 then none else some (r.lastUpdated.residuals mu).worst := by
  obtain ⟨s, us, e⟩ := r
  rcases List.eq_nil_or_concat us with rfl | ⟨us, u, rfl⟩
  · rfl
  · rw [List.concat_eq_append] at h ⊢
    rw [lastUpdated_concat, if_neg (by simp), ← h u (by simp)]
    unfold report
    rw [List.getLast?_concat]
    rfl

end Run

namespace Course

variable {p : Problem Exact n m} {c : Settings Exact} {s t : State Exact n m}
  {us : List (Update Exact n m)} {e : Ending Exact n m}

theorem error_eq (h : Course p c c.maxIterations s us e) :
    (⟨s, us, e⟩ : Run Exact n m).report.error =
      if us.length = 0 then none
      else some ((⟨s, us, e⟩ : Run Exact n m).lastUpdated.residuals c.mu).worst := by
  apply Run.error_eq ⟨s, us, e⟩
  intro u hu
  obtain ⟨⟨s, move⟩, _⟩ := h.exists_moves u hu
  exact move.residuals_eq

/-- The values cached with a state that a run visits are those at its variables. -/
theorem values_eq (h : Course p c c.maxIterations s us e) (hs : s.values = p.evaluate s.x) :
    ∀ t ∈ (⟨s, us, e⟩ : Run Exact n m).visited, t.values = p.evaluate t.x :=
  h.forall_of_follows hs fun _ _ hfollow _ => hfollow.values_eq

/-! ### The three outcomes -/

/-- A run that ends with a passed test has converged, in every residual. -/
theorem endsConverged (h : Course p c c.maxIterations s us .converged)
    (hmu : Scalar.isFinite c.mu = true) (htau : Scalar.isFinite c.tau = true) :
    (⟨s, us, .converged⟩ : Run Exact n m).EndsConverged p c := by
  have hle := h.moves_le
  have herror := h.error_eq
  obtain ⟨vs, u, rfl, pass, fail⟩ := h.of_converged
  obtain ⟨⟨s', move⟩, hfin⟩ := h.exists_moves u (by simp)
  have hfinal : (⟨s, vs ++ [u], .converged⟩ : Run Exact n m).final = u.state :=
    Run.lastUpdated_concat s vs u .converged
  have hlen : (vs ++ [u]).length = vs.length + 1 := List.length_append
  -- The values are finite because they were tested, `x` and `z` because a step led to them; only
  -- then does the largest residual speak for all three.
  obtain ⟨hx, hz⟩ := move.follows.isFinite htau
  have hall := (Residuals.worst_lt_iff (State.isFinite_feasibility hfin c.mu)
    (State.isFinite_centrality hx hz hmu)).mp pass
  rw [Run.lastUpdated_concat, if_neg (by omega)] at herror
  exact {
    one_le_iterations := by change 1 ≤ (vs ++ [u]).length; omega
    iterations_le := hle
    moves_eq := rfl
    values_eq := by rw [hfinal]; exact move.follows.values_eq
    isFinite_values := by rw [hfinal]; exact hfin
    error_eq := by rw [hfinal]; exact herror
    worst_lt := by rw [hfinal]; exact pass
    stationarity_lt := by rw [hfinal]; exact hall.1
    feasibility_lt := by rw [hfinal]; exact hall.2.1
    centrality_lt := by rw [hfinal]; exact hall.2.2
    not_worst_lt_of_mem := by
      intro v hv hlt
      rw [List.dropLast_concat] at hv
      exact absurd hlt (Bool.eq_false_iff.mp (fail v hv)) }

/-- A run that uses up its iterations has measured a last state that does not pass. -/
theorem endsAtLimit (h : Course p c c.maxIterations s us .iterationLimit)
    (hmax : 1 ≤ c.maxIterations) :
    (⟨s, us, .iterationLimit⟩ : Run Exact n m).EndsAtLimit p c := by
  have hlen := h.length_of_iterationLimit
  have herror := h.error_eq
  have hfail := h.passes_eq_false nofun
  rcases List.eq_nil_or_concat us with rfl | ⟨vs, u, rfl⟩
  · rw [List.length_nil] at hlen
    omega
  rw [List.concat_eq_append] at *
  obtain ⟨⟨s', move⟩, _⟩ := h.exists_moves u (by simp)
  have hfinal : (⟨s, vs ++ [u], .iterationLimit⟩ : Run Exact n m).final = u.state :=
    Run.lastUpdated_concat s vs u .iterationLimit
  rw [Run.lastUpdated_concat, if_neg (by omega)] at herror
  exact {
    iterations_eq := congrArg (· + 1) hlen
    length_updates := hlen
    moves_eq := hlen
    values_eq := by rw [hfinal]; exact move.follows.values_eq
    error_eq := by rw [hfinal]; exact herror
    not_worst_lt := by
      rw [hfinal]
      exact Bool.eq_false_iff.mp (hfail u (by simp)) }

/-- What the two ways to fail have in common: the state left by the iterations before is the last
one updated, and the error reported is still the one measured there. -/
theorem endsFailed (h : Course p c c.maxIterations s us e) (hs : s.values = p.evaluate s.x)
    (hlen : us.length < c.maxIterations)
    (hiter : (⟨s, us, e⟩ : Run Exact n m).report.iterations = us.length + 1)
    (heither :
      let r : Run Exact n m := ⟨s, us, e⟩
      p.newton? c r.lastUpdated = none ∧ r.final = r.lastUpdated ∧ r.moves = us.length ∨
        p.Follows c r.lastUpdated r.final ∧ r.final.values = p.evaluate r.final.x ∧
          r.final.values.isFinite = false ∧ r.moves = us.length + 1) :
    (⟨s, us, e⟩ : Run Exact n m).EndsFailed p c (⟨s, us, e⟩ : Run Exact n m).lastUpdated := by
  have hlast := (⟨s, us, e⟩ : Run Exact n m).visited_length_updates
  exact {
    one_le_iterations := by omega
    iterations_le := by omega
    visited_eq := by rw [hiter]; exact hlast
    values_eq := h.values_eq hs _ (Run.lastUpdated_mem_visited _)
    error_eq := by
      rw [hiter, h.error_eq]
      simp only [Nat.add_eq_right]
    either := by rw [hiter]; exact heither }

/-- **Every course has one of the three outcomes.** -/
theorem outcome (h : Course p c c.maxIterations s us e) (hs : s.values = p.evaluate s.x)
    (hmax : 1 ≤ c.maxIterations) (hmu : Scalar.isFinite c.mu = true)
    (htau : Scalar.isFinite c.tau = true) : (⟨s, us, e⟩ : Run Exact n m).Outcome p c := by
  cases e with
  | converged => exact h.endsConverged hmu htau
  | iterationLimit => exact h.endsAtLimit hmax
  | noDirection =>
    obtain ⟨hlen, hnone⟩ := h.of_noDirection
    exact ⟨_, h.endsFailed hs hlen rfl (.inl ⟨hnone, rfl, rfl⟩)⟩
  | notFinite t =>
    obtain ⟨hlen, hfollow, hinf⟩ := h.of_notFinite
    exact ⟨_, h.endsFailed hs hlen rfl (.inr ⟨hfollow, hfollow.values_eq, hinf, rfl⟩)⟩

end Course

/-! ### Solvers -/

/-- **How a solver ends.**  Whatever it was used for before and whatever the start, a solver with
accepted options answers a run that follows the Newton steps from the start to its final state, moves
at most as often as iterations are allowed, and has one of the three outcomes; it has succeeded when
it converged. -/
theorem Newton.outcome_of_solve (w : Newton Exact) (p : Problem Exact n m) {o : Options Exact}
    {c : Settings Exact} (ho : o.check = .ok c) (s : Start Exact) :
    ∃ run w', w.solve p o s = .ok (run, w') ∧
      run.start = (s.iterate o.mu o.mux n m).evaluate p ∧
      run.visited.IsChain (p.Follows c) ∧ run.visited.getLast? = some run.final ∧
      run.visited.length = run.moves + 1 ∧ (run.moves : ℤ) ≤ o.maxIterations ∧
      (run.report.succeeded = true ↔ run.report.status = .converged) ∧
      run.Outcome p c := by
  obtain ⟨w', hw'⟩ := w.solve_eq_ok p ho s
  have hacc := Options.accepted_of_check ho
  have hcourse := p.course_run c w.kkt s
  have hmoves := hcourse.moves_le
  have hmax := hacc.maxIterations_eq
  have hone := hacc.one_le
  refine ⟨_, w', hw', ?_, hcourse.isChain, Run.getLast?_visited _, Run.length_visited _, ?_,
    beq_iff_eq, ?_⟩
  · rw [← hacc.mu_eq, ← hacc.mux_eq]
    rfl
  · rw [← hmax]
    exact Int.ofNat_le.mpr hmoves
  · exact hcourse.outcome rfl (by omega) (Exact.isFinite_of_lt_right hacc.mu_pos)
      (Exact.isFinite_of_lt_right hacc.tau_pos)

/-- The run down a slope from no start at all. -/
theorem Newton.outcome_of_solve_slope :
    ∃ c, (Options.default : Options Exact).check = .ok c ∧
      ∃ run w', ({} : Newton Exact).solve slope Options.default {} = .ok (run, w') ∧
        run.start = ((({} : Start Exact).iterate (Options.default : Options Exact).mu
          Options.default.mux 1 0).evaluate slope) ∧
        run.visited.IsChain (slope.Follows c) ∧ run.visited.getLast? = some run.final ∧
        run.visited.length = run.moves + 1 ∧
        (run.moves : ℤ) ≤ (Options.default : Options Exact).maxIterations ∧
        (run.report.succeeded = true ↔ run.report.status = .converged) ∧
        run.Outcome slope c := by
  obtain ⟨c, hc⟩ := Options.exists_check_default
  exact ⟨c, hc, outcome_of_solve {} slope hc {}⟩

end GibbsNewton.Optimum
