import GibbsNewton.Proofs.Equilibrium.MassAction

/-!
# Refused options

The options of a calculation are checked at three places: the choices of second derivatives and of the
method at the very beginning, the options of the search for a feasible point before it starts, and the
options of the run before that starts.  A session that is refused at the first or the second place keeps
its result.  At the third place a search has already written to it.

What the third check finds and the second one does not is a single thing.  The search puts a method of
its own in place of the one asked for; so when the second derivatives are wanted in full, and only then,
the name of the method for the Newton systems is looked up by the run alone.

## Main definitions

* `Options.RefusedLate` — the options are refused, but only after a search.

## Main results

* `Session.result_of_refused` — **a refusal leaves the result as it was, unless it comes late**, and
  what it leaves then.
* `Session.point_ne_of_refused_isomers` — a refusal that comes late does change the result.
-/

namespace GibbsNewton

variable {α : Type} {n m : Nat}

namespace Equilibrium

namespace Options

/-- The options of the run name a scheme that exists. -/
theorem ofName?_hessian_paired (o : Options α) :
    Optimum.HessianScheme.ofName? o.paired.hessian ≠ none := by
  unfold paired
  split
  · exact (Optimum.HessianScheme.ofName?_name .diagonal).symm ▸ Option.some_ne_none _
  · exact (Optimum.HessianScheme.ofName?_name .exact).symm ▸ Option.some_ne_none _

/-- They name no method when none was named and the second derivatives are wanted in full. -/
theorem ofName?_kkt_paired_eq_none_iff (o : Options α) :
    Kkt.Method.ofName? o.paired.kkt = none ↔
      asksDiagonal o.hessian = false ∧ Kkt.Method.ofName? o.optimum.kkt = none := by
  unfold paired
  split
  next h => simp [h, Kkt.Method.ofName?_name]
  next h => simp [h]

variable [Scalar α]

/-- A search is refused for its numbers only. -/
theorem exists_check_forFeasibility_iff (o : Options α) :
    (∃ c, o.paired.forFeasibility.check = .ok c) ↔ o.optimum.Bounded :=
  o.paired.exists_check_forFeasibility_iff.trans o.bounded_paired

/-- The options are refused only after the search for a feasible point that they ask for: the one thing
wrong with them is the name of the method, and the search does without it. -/
structure RefusedLate (o : Options α) : Prop where
  feasibility : o.feasibility = true
  choices : ∃ choice, o.check = .ok choice
  full : asksDiagonal o.hessian = false
  method : Kkt.Method.ofName? o.optimum.kkt = none
  bounded : o.optimum.Bounded

end Options

namespace Session

variable [Scalar α] (minimise : Optimum.Minimiser α) (w : Session α) (p : Problem α n m)

/-- A search that is made had its options accepted. -/
theorem exists_check_of_findFeasible {o : Options α} {v : Session α}
    (h : w.findFeasible p o = .ok v) : ∃ c, o.paired.forFeasibility.check = .ok c := by
  cases hc : o.paired.forFeasibility.check with
  | ok c => exact ⟨c, rfl⟩
  | error e =>
    unfold findFeasible Optimum.Newton.feasible Optimum.Newton.solve at h
    rw [hc] at h
    cases ho : o.check <;> rw [ho] at h <;> cases h

/-- A calculation is refused when the check of its options fails. -/
theorem check_of_optimise_refused {o : Optimum.Options α} {scheme : Scheme} {method : Method}
    {s : Optimum.Start α} {e : Optimum.OptionError α}
    (h : w.optimise minimise p scheme method o s = .error (.refused e)) : o.check = .error e := by
  cases hc : o.check with
  | error e' =>
    unfold optimise at h
    rw [hc] at h
    cases h
    rfl
  | ok c =>
    cases hp : p.model.isEvaluable with
    | true =>
      obtain ⟨u, report, hw⟩ := exists_optimise minimise p hp hc scheme method s
      obtain ⟨newton, hnewton⟩ := hw w
      rw [hnewton] at h
      cases h
    | false =>
      rw [w.optimise_eq_notEvaluable minimise p hp hc] at h
      cases h

/-- Options that are refused late are refused for the method that they name, and what the search found
stays in the result. -/
theorem solve_of_refusedLate {o : Options α} (h : o.RefusedLate) :
    ∃ (w' : Session α) (u : Optimum.Iterate α n m) (report : Optimum.Report α),
      w.solve minimise p o =
        (.error (.refused (.unknown (Kkt.Method.unknown o.optimum.kkt))), w') ∧
      w'.result = { w.result with point := u.toStart, feasibility := some report } := by
  obtain ⟨⟨scheme, method⟩, ho⟩ := h.choices
  obtain ⟨c, hc⟩ := o.exists_check_forFeasibility_iff.mpr h.bounded
  obtain ⟨u, report, hsearch⟩ := exists_findFeasible p ho hc (w.start o.warmstart)
  obtain ⟨feasible, hfound⟩ := hsearch w rfl
  have hrefused := Optimum.Options.check_eq_unknown o.ofName?_hessian_paired
    (o.ofName?_kkt_paired_eq_none_iff.mpr ⟨h.full, h.method⟩)
  have hname : o.paired.kkt = o.optimum.kkt := by
    unfold Options.paired
    rw [h.full]
    rfl
  rw [hname] at hrefused
  refine ⟨{ w with
    feasible
    result := { w.result with point := u.toStart, feasibility := some report } }, u, report, ?_, rfl⟩
  rw [w.solve_eq_of_findFeasible minimise p ho h.feasibility hfound,
    solve_eq_optimise minimise _ p (o := { o with feasibility := false, warmstart := true }) ho rfl]
  have hpaired : ({ o with feasibility := false, warmstart := true } : Options α).paired.check =
      .error (.unknown (Kkt.Method.unknown o.optimum.kkt)) := hrefused
  unfold optimise
  rw [hpaired]
  rfl

/-- A calculation that fails leaves the session as it was, or as a search left it. -/
theorem eq_or_findFeasible_of_solve_error {o : Options α} {e : SolveError α} {w' : Session α}
    (h : w.solve minimise p o = (.error e, w')) :
    w' = w ∨ ∃ choice : Scheme × Method, o.check = .ok choice ∧ o.feasibility = true ∧
      w.findFeasible p o = .ok w' ∧
      w'.optimise minimise p choice.1 choice.2 o.paired (w'.start true) = .error e := by
  unfold solve at h
  cases ho : o.check with
  | error e' =>
    rw [ho] at h
    cases h
    exact .inl rfl
  | ok choice =>
    rw [ho] at h
    cases hf : o.feasibility with
    | false =>
      rw [hf, if_neg Bool.false_ne_true] at h
      dsimp only at h
      split at h
      · cases h
        exact .inl rfl
      · cases h
    | true =>
      rw [hf, if_pos rfl, Bool.or_true] at h
      cases hs : w.findFeasible p o with
      | error e' =>
        rw [hs] at h
        cases h
        exact .inl rfl
      | ok v =>
        rw [hs] at h
        dsimp only at h
        split at h
        next hv =>
          cases h
          exact .inr ⟨choice, rfl, rfl, rfl, hv⟩
        next => cases h

/-- A refusal that does not come late leaves the session as it was. -/
theorem eq_of_refused {o : Options α} {e : Optimum.OptionError α} {w' : Session α}
    (h : w.solve minimise p o = (.error (.refused e), w')) (hlate : ¬o.RefusedLate) : w' = w := by
  obtain heq | ⟨choice, ho, hf, hfound, hrefused⟩ :=
    w.eq_or_findFeasible_of_solve_error minimise p h
  · exact heq
  · -- the search was made, so the numbers are in bounds, and what is wrong can only be the method
    have hbounded := o.exists_check_forFeasibility_iff.mp (w.exists_check_of_findFeasible p hfound)
    have hmethod : Kkt.Method.ofName? o.paired.kkt = none := by
      by_contra hname
      obtain ⟨c, hc⟩ := Optimum.Options.exists_check_iff.mpr
        ⟨o.ofName?_hessian_paired, hname, o.bounded_paired.mpr hbounded⟩
      rw [w'.check_of_optimise_refused minimise p hrefused] at hc
      cases hc
    obtain ⟨hfull, hnone⟩ := o.ofName?_kkt_paired_eq_none_iff.mp hmethod
    exact absurd ⟨hf, ⟨choice, ho⟩, hfull, hnone, hbounded⟩ hlate

/-- **A refusal leaves the result as it was, unless it comes late.**  Then the method named for the
Newton systems is what it is for, and the search that was made has left its point and its summary. -/
theorem result_of_refused {o : Options α} {e : Optimum.OptionError α} {w' : Session α}
    (h : w.solve minimise p o = (.error (.refused e), w')) :
    (¬o.RefusedLate → w'.result = w.result) ∧
    (o.RefusedLate → e = .unknown (Kkt.Method.unknown o.optimum.kkt) ∧
      ∃ (u : Optimum.Iterate α n m) (report : Optimum.Report α),
        w'.result = { w.result with point := u.toStart, feasibility := some report }) := by
  constructor
  · intro hlate
    rw [w.eq_of_refused minimise p h hlate]
  · intro hlate
    obtain ⟨v, u, report, hv, hresult⟩ := w.solve_of_refusedLate minimise p hlate
    obtain ⟨he, rfl⟩ := Prod.mk.inj (h.symm.trans hv)
    injection he with he
    injection he with he
    exact ⟨he, u, report, hresult⟩

/-! ### Two isomers -/

/-- Options with a method for the Newton systems that does not exist, and a search for a feasible
point. -/
noncomputable def unknownMethod : Options Exact :=
  { (Options.default : Options Exact) with
    feasibility := true
    optimum := { (Optimum.Options.default : Optimum.Options Exact) with kkt := "cholesky" } }

theorem refusedLate_unknownMethod : unknownMethod.RefusedLate := by
  obtain ⟨c, hc⟩ := Optimum.Options.exists_check_default
  obtain ⟨-, -, hbounded⟩ := Optimum.Options.exists_check_iff.mp ⟨c, hc⟩
  exact ⟨rfl, ⟨_, Options.check_default⟩, by decide, by decide, hbounded⟩

/-- The same, with no iteration allowed. -/
noncomputable def unknownMethodIdle : Options Exact :=
  { unknownMethod with optimum := { unknownMethod.optimum with maxIterations := 0 } }

/-- Here the search is refused itself, and nothing has changed. -/
theorem result_of_refused_isomers :
    ∃ e w', ({} : Session Exact).solve Optimum.centralPath isomers.exact unknownMethodIdle =
        (.error (.refused e), w') ∧
      ¬unknownMethodIdle.RefusedLate ∧ w'.result = ({} : Session Exact).result := by
  have hlate : ¬unknownMethodIdle.RefusedLate := by
    intro hlate
    have hone : 1 ≤ unknownMethodIdle.optimum.maxIterations := hlate.bounded.1
    revert hone
    decide
  have hchoices : unknownMethodIdle.check = .ok (.exact, .newton) := Options.check_default
  have hcheck : unknownMethodIdle.paired.forFeasibility.check = .error (.iterations 0) := by
    have hmax : unknownMethodIdle.paired.maxIterations = 0 := by
      unfold Options.paired
      split <;> rfl
    unfold Optimum.Options.check Optimum.Options.forFeasibility
    rw [Optimum.HessianScheme.ofName?_name, Kkt.Method.ofName?_name]
    dsimp only
    rw [hmax, if_pos (by decide)]
  have hsolve : ({} : Session Exact).solve Optimum.centralPath isomers.exact unknownMethodIdle =
      (.error (.refused (.iterations 0)), {}) := by
    unfold solve findFeasible Optimum.Newton.feasible Optimum.Newton.solve
    rw [hchoices, hcheck]
    rfl
  exact ⟨_, _, hsolve, hlate,
    (({} : Session Exact).result_of_refused Optimum.centralPath isomers.exact hsolve).1 hlate⟩

/-- **A refusal that comes late changes the result.** -/
theorem point_ne_of_refused_isomers :
    ∃ e w', ({} : Session Exact).solve Optimum.centralPath isomers.exact unknownMethod =
        (.error (.refused e), w') ∧
      w'.result.point ≠ ({} : Session Exact).result.point ∧
      w'.result.feasibility ≠ ({} : Session Exact).result.feasibility := by
  obtain ⟨w', u, report, hw', hresult⟩ :=
    ({} : Session Exact).solve_of_refusedLate Optimum.centralPath isomers.exact
      refusedLate_unknownMethod
  refine ⟨_, w', hw', ?_, ?_⟩
  · rw [hresult]
    intro hpoint
    have hlength : u.x.toList.length = 2 := u.x.length_toList
    rw [show u.x.toList = [] from congrArg Optimum.Start.x hpoint] at hlength
    cases hlength
  · rw [hresult]
    exact Option.some_ne_none report

end Session

end Equilibrium

end GibbsNewton
