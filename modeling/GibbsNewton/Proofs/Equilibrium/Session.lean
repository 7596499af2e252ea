import GibbsNewton.Equilibrium.Session
import GibbsNewton.Proofs.Equilibrium.Problem
import GibbsNewton.Proofs.Optimum.Lockstep
import GibbsNewton.Proofs.Optimum.Solved

/-!
# What a session does

A calculation by Newton runs is one run, or two if a feasible point is searched for first, the second
of which starts where the first one ended.  A session whose last result is made of real numbers goes
through real states in both, so that its next result is made of real numbers again.

## Main results

* `Session.solve_eq_ok` — without a search, what a session answers is the run of its solver.
* `Session.solve_eq_of_findFeasible` — with a search, it is what a session that has made the search
  answers.
* `Session.exists_findFeasible`, `Session.exists_optimise` — what a search and a calculation leave is
  determined by where they start.
* `Session.findFeasible_eq_ok` — a search leaves a real point.
* `Session.overReals_of_solve` — **a calculation goes through real states**, after a search or without.
-/

namespace GibbsNewton

variable {n m : ℕ}

/-- An iterate is known from the start that goes on from it. -/
theorem Optimum.Iterate.eq_of_toStart_exact {u v : Iterate ℝ n m}
    (h : u.toStart.exact = v.toStart.exact) : u = v := by
  have hreal : Function.Injective (List.map Exact.real) :=
    List.map_injective_iff.mpr fun _ _ => Exact.real.inj
  obtain ⟨hx, hy, hz⟩ := (Start.mk.injEq ..).mp h
  obtain ⟨ux, uy, uz⟩ := u
  obtain ⟨vx, vy, vz⟩ := v
  obtain rfl := Vec.toList_inj.mp (hreal hx)
  obtain rfl := Vec.toList_inj.mp (hreal hy)
  obtain rfl := Vec.toList_inj.mp (hreal hz)
  rfl

namespace Equilibrium

theorem Options.mux_paired {α : Type} (o : Options α) : o.paired.mux = o.optimum.mux := by
  unfold paired
  split <;> rfl

theorem Options.mu_paired {α : Type} (o : Options α) : o.paired.mu = o.optimum.mu := by
  unfold paired
  split <;> rfl

theorem Options.tolerance_paired {α : Type} (o : Options α) :
    o.paired.tolerance = o.optimum.tolerance := by
  unfold paired
  split <;> rfl

theorem Options.bounded_paired {α : Type} [Scalar α] (o : Options α) :
    o.paired.Bounded ↔ o.optimum.Bounded := by
  unfold paired
  split <;> exact Iff.rfl

/-- Options that are accepted for the run are accepted for the search. -/
theorem Options.exists_check_forFeasibility {α : Type} [Scalar α] {o : Options α}
    {c : Optimum.Settings α} (hc : o.paired.check = .ok c) :
    ∃ c', o.paired.forFeasibility.check = .ok c' :=
  ⟨_, Optimum.Options.check_of_names hc (Optimum.HessianScheme.ofName?_name .diagonal)
    (Kkt.Method.ofName?_name .rangespace)⟩

/-- A mixture without empty phases can be evaluated. -/
theorem MixtureProblem.isEvaluable_exact {P : MixtureProblem n m}
    (hphases : ∀ q ∈ P.mixture.phases, q.species ≠ []) : P.exact.model.isEvaluable = true := by
  change P.mixture.exact.isEvaluable = true
  rw [Mixture.isEvaluable, List.all_eq_true]
  intro q hq
  simp [Phase.isEmptyGas, hphases q hq]

namespace Session

/-- Without a search a calculation is an optimisation. -/
theorem solve_eq_optimise {α : Type} [Scalar α] (minimise : Optimum.Minimiser α) (w : Session α)
    (p : Problem α n m) {o : Options α} {scheme : Scheme} {method : Method}
    (ho : o.check = .ok (scheme, method)) (hfeasibility : o.feasibility = false) :
    w.solve minimise p o =
      match w.optimise minimise p scheme method o.paired (w.start o.warmstart) with
      | .error e => (.error e, w)
      | .ok v => (.ok (), v) := by
  unfold solve
  rw [ho, hfeasibility, Bool.or_false]
  rfl

section

variable {α : Type} [Scalar α] (minimise : Optimum.Minimiser α) (w : Session α) {p : Problem α n m}
  (hp : p.model.isEvaluable = true)

include hp

/-- To accepted options a session answers the run of its solver. -/
theorem optimise_eq_ok {o : Optimum.Options α} {scheme : Scheme} {c : Optimum.Settings α}
    (hc : o.check = .ok c) {s : Optimum.Start α} {r : Optimum.Run α n m} {newton : Optimum.Newton α}
    (hr : w.newton.solve (p.optimum scheme) o s = .ok (r, newton)) :
    w.optimise minimise p scheme .newton o s = .ok { w with
      newton
      result := { w.result with point := r.final.toStart, optimum := r.report } } := by
  unfold optimise
  rw [hc, hp]
  dsimp only
  rw [hr]
  rfl

/-- Without a search for a feasible point a session answers the run of its solver. -/
theorem solve_eq_ok {o : Options α} {scheme : Scheme}
    (ho : o.check = .ok (scheme, .newton)) (hfeasibility : o.feasibility = false)
    {c : Optimum.Settings α} (hc : o.paired.check = .ok c) {r : Optimum.Run α n m}
    {newton : Optimum.Newton α}
    (hr : w.newton.solve (p.optimum scheme) o.paired (w.start o.warmstart) = .ok (r, newton)) :
    w.solve minimise p o = (.ok (), { w with
      newton
      result := { w.result with point := r.final.toStart, optimum := r.report } }) := by
  rw [w.solve_eq_optimise minimise p ho hfeasibility, w.optimise_eq_ok minimise hp hc hr]

end

section

variable {α : Type} [Scalar α] (minimise : Optimum.Minimiser α) (w : Session α) (p : Problem α n m)

/-- To accepted options a search answers the run of its solver. -/
theorem findFeasible_eq_of_run {o : Options α} {scheme : Scheme} {method : Method}
    (ho : o.check = .ok (scheme, method)) {run : Optimum.Run α n m} {feasible : Optimum.Newton α}
    (hrun : w.feasible.feasible (p.optimum scheme) o.paired (w.start o.warmstart) =
      .ok (run, feasible)) :
    w.findFeasible p o = .ok { w with
      feasible
      result := { w.result with
        point := run.final.toStart
        feasibility := some run.report } } := by
  unfold findFeasible
  rw [ho]
  dsimp only [Except.mapError, bind, Except.bind]
  rw [hrun]
  rfl

/-- **What a search leaves** depends on where it starts: every session that starts there keeps one and
the same point and summary. -/
theorem exists_findFeasible {o : Options α} {scheme : Scheme} {method : Method}
    (ho : o.check = .ok (scheme, method)) {c : Optimum.Settings α}
    (hc : o.paired.forFeasibility.check = .ok c) (s : Optimum.Start α) :
    ∃ (u : Optimum.Iterate α n m) (report : Optimum.Report α),
      ∀ w : Session α, w.start o.warmstart = s → ∃ feasible, w.findFeasible p o = .ok { w with
        feasible
        result := { w.result with point := u.toStart, feasibility := some report } } := by
  obtain ⟨run, hrun⟩ := Optimum.Newton.exists_run (p.optimum scheme).feasibility hc s
  refine ⟨run.final.toIterate, run.report, fun w hw => ?_⟩
  obtain ⟨feasible, hfeasible⟩ : ∃ feasible, w.feasible.feasible (p.optimum scheme) o.paired s =
      .ok (run, feasible) := hrun w.feasible
  rw [← hw] at hfeasible
  exact ⟨feasible, w.findFeasible_eq_of_run p ho hfeasible⟩

/-- A model that cannot be evaluated is noticed once the options are accepted. -/
theorem optimise_eq_notEvaluable (hp : p.model.isEvaluable = false) {o : Optimum.Options α}
    {c : Optimum.Settings α} (hc : o.check = .ok c) (scheme : Scheme) (method : Method)
    (s : Optimum.Start α) : w.optimise minimise p scheme method o s = .error .notEvaluable := by
  unfold optimise
  rw [hc, hp]
  rfl

/-- **What a calculation leaves** depends on where it starts, too, and on nothing else that a session
keeps. -/
theorem exists_optimise (hp : p.model.isEvaluable = true) {o : Optimum.Options α}
    {c : Optimum.Settings α} (hc : o.check = .ok c) (scheme : Scheme) (method : Method)
    (s : Optimum.Start α) :
    ∃ (u : Optimum.Iterate α n m) (report : Optimum.Report α),
      ∀ w : Session α, ∃ newton, w.optimise minimise p scheme method o s = .ok { w with
        newton
        result := { w.result with point := u.toStart, optimum := report } } := by
  cases method with
  | newton =>
    obtain ⟨run, hrun⟩ := Optimum.Newton.exists_run (p.optimum scheme) hc s
    refine ⟨run.final.toIterate, run.report, fun w => ?_⟩
    obtain ⟨newton, hnewton⟩ := hrun w.newton
    exact ⟨newton, w.optimise_eq_ok minimise hp hc hnewton⟩
  | minimiser =>
    set u := s.iterate c.mu c.mux n m
    set answer := minimise.finish (minimise.minimum n m (p.optimum scheme) c u.x) (p.optimum scheme) c u
    refine ⟨answer.1.toIterate, answer.2, fun w => ⟨w.newton, ?_⟩⟩
    unfold optimise Optimum.Minimiser.solve
    rw [hc, hp]
    rfl

/-- **After a search a calculation goes on from what was found**, as one that is asked for no search and
to start from the last result. -/
theorem solve_eq_of_findFeasible {o : Options α} {scheme : Scheme} {method : Method}
    (ho : o.check = .ok (scheme, method)) (hfeasibility : o.feasibility = true) {v : Session α}
    (hv : w.findFeasible p o = .ok v) :
    w.solve minimise p o =
      v.solve minimise p { o with feasibility := false, warmstart := true } := by
  have ho' : ({ o with feasibility := false, warmstart := true } : Options α).check =
      .ok (scheme, method) := ho
  rw [v.solve_eq_optimise minimise p ho' rfl]
  unfold solve
  rw [ho, hfeasibility, if_pos rfl, hv, Bool.or_true]
  rfl

end

variable {P : MixtureProblem n m} (w : Session Exact)

/-- Where a session starts from is real with its last result. -/
theorem start_eq_exact {s : Optimum.Start ℝ} (hs : w.result.point = s.exact) (warm : Bool) :
    ∃ s' : Optimum.Start ℝ, w.start warm = s'.exact := by
  cases warm with
  | false => exact ⟨{}, rfl⟩
  | true => exact ⟨s, hs⟩

/-- **A search leaves a real point**, and nothing but its own summary besides. -/
theorem findFeasible_eq_ok {o : Options Exact} {scheme : Scheme} {method : Method}
    (ho : o.check = .ok (scheme, method)) {c : Optimum.Settings Exact} (hc : o.paired.check = .ok c)
    (hmux : 0 < o.optimum.mux) {s : Optimum.Start ℝ} (hs : w.result.point = s.exact) :
    ∃ w' s', w.findFeasible P.exact o = .ok w' ∧ w'.result.point = Optimum.Start.exact s' := by
  obtain ⟨s₀, hs₀⟩ := w.start_eq_exact hs o.warmstart
  obtain ⟨c', hcheck⟩ := Options.exists_check_forFeasibility hc
  rw [← o.mux_paired] at hmux
  obtain ⟨run, feasible, hrun, -, hreals⟩ := w.feasible.overReals_of_solve
    (P.exact.optimum scheme).feasibility hcheck hmux s₀
  obtain ⟨u, hu⟩ := hreals.exists_isAt _ run.final_mem_visited
  rw [← hs₀] at hrun
  refine ⟨_, u.toStart, w.findFeasible_eq_of_run P.exact ho hrun, ?_⟩
  dsimp only
  rw [hu.iterate_eq, u.toStart_exact]

/-- **A calculation goes through real states**, after a search for a feasible point or without: a session
with accepted options and a real last result keeps the end of a run through real states. -/
theorem overReals_of_solve (minimise : Optimum.Minimiser Exact)
    (hphases : ∀ q ∈ P.mixture.phases, q.species ≠ []) {o : Options Exact} {scheme : Scheme}
    (ho : o.check = .ok (scheme, .newton)) {c : Optimum.Settings Exact} (hc : o.paired.check = .ok c)
    (hmux : 0 < o.optimum.mux) {s : Optimum.Start ℝ} (hs : w.result.point = s.exact) :
    ∃ (run : Optimum.Run Exact n m) (w' : Session Exact),
      w.solve minimise P.exact o = (.ok (), w') ∧ run.OverReals (P.exact.optimum scheme) c ∧
      w'.result.point = run.final.toStart ∧ w'.result.optimum = run.report := by
  -- the search, if there is one, leaves a session of the same kind
  obtain ⟨v, s₁, hv, hs₁⟩ : ∃ v s₁, (if o.feasibility then w.findFeasible P.exact o else .ok w) =
      .ok v ∧ v.result.point = Optimum.Start.exact s₁ := by
    cases o.feasibility with
    | false => exact ⟨w, s, rfl, hs⟩
    | true =>
      obtain ⟨v, s₁, hv, hs₁⟩ := w.findFeasible_eq_ok (P := P) ho hc hmux hs
      exact ⟨v, s₁, hv, hs₁⟩
  obtain ⟨s₂, hs₂⟩ := v.start_eq_exact hs₁ (o.warmstart || o.feasibility)
  obtain ⟨run, newton, hrun, -, hreals⟩ := v.newton.overReals_of_solve (P.exact.optimum scheme) hc
    (by rw [o.mux_paired]; exact hmux) s₂
  rw [← hs₂] at hrun
  refine ⟨run, { v with
    newton
    result := { v.result with point := run.final.toStart, optimum := run.report } }, ?_, hreals,
    rfl, rfl⟩
  unfold solve
  rw [ho]
  dsimp only
  rw [hv]
  dsimp only
  rw [v.optimise_eq_ok minimise (MixtureProblem.isEvaluable_exact hphases) hc hrun]

end Session

end Equilibrium

end GibbsNewton
