import GibbsNewton.Proofs.Equilibrium.MassAction

/-!
# What a calculation depends on

A session keeps two solvers and a result.  The solvers keep factors, a flag and a table of the last run,
whatever problem that run was about and however it ended; none of this has any influence on the next
calculation.  The result has an influence through the point in it, and only on a calculation that is
asked to start from there.

## Main definitions

* `Session.Forgetful` — what a calculation of a session depends on, and what it does not depend on.

## Main results

* `Session.exists_result_solve` — what a calculation leaves, from where it starts.
* `Session.forgetful_of_check` — **a session forgets everything but its result**, and without a warm
  start the point in it as well.
-/

namespace GibbsNewton.Equilibrium

variable {α : Type} [Scalar α] {n m : Nat}

namespace Session

variable (minimise : Optimum.Minimiser α) (p : Problem α n m) {o : Options α} {scheme : Scheme}
  {method : Method} {c : Optimum.Settings α}

section

variable (ho : o.check = .ok (scheme, method)) (hc : o.paired.check = .ok c)

include ho hc

/-- What a calculation leaves without a search: another point and summary, or the result as it was if
the model cannot be evaluated. -/
theorem exists_result_solve_of_unsearched (hfeasibility : o.feasibility = false)
    (s : Optimum.Start α) :
    ∃ (u : Optimum.Iterate α n m) (report : Optimum.Report α),
      ∀ w : Session α, w.start o.warmstart = s →
        (w.solve minimise p o).1 =
          (if p.model.isEvaluable then .ok () else .error .notEvaluable) ∧
        (w.solve minimise p o).2.result =
          if p.model.isEvaluable then
            { w.result with point := u.toStart, optimum := report }
          else w.result := by
  cases hp : p.model.isEvaluable with
  | true =>
    obtain ⟨u, report, hoptimise⟩ := exists_optimise minimise p hp hc scheme method s
    refine ⟨u, report, fun w hw => ?_⟩
    obtain ⟨newton, hnewton⟩ := hoptimise w
    rw [w.solve_eq_optimise minimise p ho hfeasibility, hw, hnewton]
    exact ⟨rfl, rfl⟩
  | false =>
    refine ⟨s.iterate c.mu c.mux n m, {}, fun w hw => ?_⟩
    rw [w.solve_eq_optimise minimise p ho hfeasibility, w.optimise_eq_notEvaluable minimise p hp hc]
    exact ⟨rfl, rfl⟩

/-- **What a calculation leaves** is one point and one summary for all sessions that start at one place,
and one summary of the search if there is a search; all else stays as it was. -/
theorem exists_result_solve (s : Optimum.Start α) :
    ∃ (u : Optimum.Iterate α n m) (report found : Optimum.Report α),
      ∀ w : Session α, w.start o.warmstart = s →
        (w.solve minimise p o).1 =
          (if p.model.isEvaluable then .ok () else .error .notEvaluable) ∧
        (w.solve minimise p o).2.result = {
          point := if p.model.isEvaluable || o.feasibility then u.toStart else w.result.point
          optimum := if p.model.isEvaluable then report else w.result.optimum
          feasibility := if o.feasibility then some found else w.result.feasibility } := by
  cases hfeasibility : o.feasibility with
  | false =>
    obtain ⟨u, report, hsolve⟩ := exists_result_solve_of_unsearched minimise p ho hc hfeasibility s
    refine ⟨u, report, report, fun w hw => ?_⟩
    obtain ⟨houtcome, hresult⟩ := hsolve w hw
    refine ⟨houtcome, hresult.trans ?_⟩
    cases p.model.isEvaluable <;> rfl
  | true =>
    obtain ⟨c', hc'⟩ := Options.exists_check_forFeasibility hc
    obtain ⟨u₀, found, hsearch⟩ := exists_findFeasible p ho hc' s
    -- the calculation goes on from the point found, so it is one without a search from there
    obtain ⟨u, report, hsolve⟩ := exists_result_solve_of_unsearched minimise p
      (o := { o with feasibility := false, warmstart := true }) ho hc rfl u₀.toStart
    refine ⟨if p.model.isEvaluable then u else u₀, report, found, fun w hw => ?_⟩
    obtain ⟨feasible, hfound⟩ := hsearch w hw
    rw [w.solve_eq_of_findFeasible minimise p ho hfeasibility hfound]
    obtain ⟨houtcome, hresult⟩ := hsolve { w with
      feasible
      result := { w.result with point := u₀.toStart, feasibility := some found } } rfl
    refine ⟨houtcome, hresult.trans ?_⟩
    cases p.model.isEvaluable <;> rfl

end

/-- What the calculation of a session depends on, and what it does not depend on.  The result and the
solvers of a session are independent of each other: a fresh session that was given the same result is
one of those that `history` is about. -/
structure Forgetful (o : Options α) (w : Session α) : Prop where
  /-- The calculation comes to an end, unless the model cannot be evaluated. -/
  outcome : (w.solve minimise p o).1 =
    if p.model.isEvaluable then .ok () else .error .notEvaluable
  /-- What the solvers were used for makes no difference. -/
  history : ∀ v : Session α, v.result = w.result →
    (v.solve minimise p o).2.result = (w.solve minimise p o).2.result
  /-- Without a warm start the last result makes no difference, either. -/
  cold : o.warmstart = false → p.model.isEvaluable = true → ∀ v : Session α,
    (v.solve minimise p o).2.result.point = (w.solve minimise p o).2.result.point ∧
    (v.solve minimise p o).2.result.optimum = (w.solve minimise p o).2.result.optimum
  /-- A search may as well be asked for by itself, and the calculation from what it found. -/
  searched : o.feasibility = true → ∃ v, w.findFeasible p o = .ok v ∧
    w.solve minimise p o = v.solve minimise p { o with feasibility := false, warmstart := true }
  /-- Without a search the summary of the last search stays. -/
  unsearched : o.feasibility = false →
    (w.solve minimise p o).2.result.feasibility = w.result.feasibility

/-- **A session forgets everything but its result**: whatever its solvers were used for, to accepted
options it answers as any session with that result does. -/
theorem forgetful_of_check (ho : o.check = .ok (scheme, method)) (hc : o.paired.check = .ok c)
    (w : Session α) : w.Forgetful minimise p o := by
  obtain ⟨u, report, found, hsolve⟩ := exists_result_solve minimise p ho hc (w.start o.warmstart)
  obtain ⟨houtcome, hresult⟩ := hsolve w rfl
  refine ⟨houtcome, ?history, ?cold, ?searched, ?unsearched⟩
  case history =>
    intro v hv
    have hstart : v.start o.warmstart = w.start o.warmstart := by
      unfold start
      rw [hv]
    rw [(hsolve v hstart).2, hresult, hv]
  case cold =>
    intro hcold hp v
    have hstart : v.start o.warmstart = w.start o.warmstart := by
      rw [hcold]
      rfl
    rw [(hsolve v hstart).2, hresult, hp]
    exact ⟨rfl, rfl⟩
  case searched =>
    intro hfeasibility
    obtain ⟨c', hc'⟩ := Options.exists_check_forFeasibility hc
    obtain ⟨u₀, found₀, hsearch⟩ := exists_findFeasible p ho hc' (w.start o.warmstart)
    obtain ⟨feasible, hfound⟩ := hsearch w rfl
    exact ⟨_, hfound, w.solve_eq_of_findFeasible minimise p ho hfeasibility hfound⟩
  case unsearched =>
    intro hfeasibility
    rw [hresult, hfeasibility]
    rfl

/-- A cold calculation for two isomers after a search, by a session whose solver was used with another
method before. -/
theorem forgetful_isomers :
    let o : Options Exact := { Options.default with feasibility := true, warmstart := false }
    let w : Session Exact := { newton := { kkt := .new .nullspace } }
    o.check = .ok (.exact, .newton) ∧ (∃ c, o.paired.check = .ok c) ∧
      w.Forgetful Optimum.centralPath isomers.exact o := by
  intro o w
  have ho : o.check = .ok (.exact, .newton) := Options.check_default
  obtain ⟨c, hc⟩ := Optimum.Options.exists_check_default
  have hpaired : o.paired.check = .ok c := by
    rw [← Options.paired_default] at hc
    exact hc
  exact ⟨ho, ⟨c, hpaired⟩, forgetful_of_check Optimum.centralPath isomers.exact ho hpaired w⟩

end Session

end GibbsNewton.Equilibrium
