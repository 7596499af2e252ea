import GibbsNewton.Proofs.Optimum.ConstraintResidual
import GibbsNewton.Proofs.Optimum.Lockstep

/-!
# Searches for a feasible point

A search leaves the objective out.  What remains of the second derivatives at an interior point is the
positive diagonal of the bounds, so the curvature is definite whatever the variables are, and a step
exists exactly when the rows of the Jacobian at the point are independent.  The constraints need not be
linear: the Jacobian may change from state to state, and the search goes on until it meets a state with
dependent rows, or to the end.  Nothing of the objective, nor of the choices of linear algebra that go
with it, is looked at on the way.

## Main definitions

* `Mat.DependentRows` — the entries are real and some combination of the rows vanishes.
* `Problem.FiniteConstraints` — constraints and Jacobian are finite at positive points.
* `Run.FailsWhere` — a run finds a direction except where something holds, and fails at the first state
  where it does.
* `Run.Searches` — what there is to say of a search for a feasible point.

## Main results

* `Course.failsWhere` — **what is known of every single direction says when a run fails.**
* `Problem.newton?_feasibility_ne_none_iff` — when a search has a direction.
* `Newton.exists_search` — **a search fails exactly where the rows of the Jacobian are dependent, and
  it is one and the same search for every objective.**
-/

namespace GibbsNewton

open Matrix

variable {n m : ℕ}

/-- The entries of the matrix are real and some combination of its rows vanishes. -/
def Mat.DependentRows (A : Mat Exact m n) : Prop :=
  ∃ B : Matrix (Fin m) (Fin n) ℝ, A = Mat.ofReal B ∧ ¬LinearIndependent ℝ B.row

theorem Mat.dependentRows_ofReal_iff {B : Matrix (Fin m) (Fin n) ℝ} :
    (Mat.ofReal B).DependentRows ↔ ¬LinearIndependent ℝ B.row := by
  constructor
  · rintro ⟨B', hB', hdependent⟩
    obtain rfl := Mat.ofReal_inj.mp hB'
    exact hdependent
  · intro hdependent
    exact ⟨B, rfl, hdependent⟩

namespace Optimum

/-! ### Where runs fail -/

section

variable {α : Type}

theorem Run.final_cons (s : State α n m) (u : Update α n m) (us : List (Update α n m))
    (e : Ending α n m) :
    (⟨s, u :: us, e⟩ : Run α n m).final = (⟨u.state, us, e⟩ : Run α n m).final := by
  cases e with
  | notFinite t => rfl
  | converged => exact lastUpdated_cons s u us _
  | iterationLimit => exact lastUpdated_cons s u us _
  | noDirection => exact lastUpdated_cons s u us _

variable [Scalar α]

/-- The run finds a direction at the states that it visits except where `D` holds, and it fails exactly
if it attempts a step from a state where `D` holds; then it ends at the first such state. -/
structure Run.FailsWhere (r : Run α n m) (p : Problem α n m) (c : Settings α)
    (D : State α n m → Prop) : Prop where
  direction_iff : ∀ t ∈ r.visited, p.newton? c t ≠ none ↔ ¬D t
  failed_iff : r.report.status = .numericFailure ↔ ∃ t ∈ r.attempted, D t
  first : r.report.status = .numericFailure →
    ∃ ts, r.attempted = ts ++ [r.final] ∧ D r.final ∧ ∀ t ∈ ts, ¬D t

/-- A run that moves on from a state where `D` does not hold fails where the rest of it does. -/
theorem Run.FailsWhere.cons {p : Problem α n m} {c : Settings α} {D : State α n m → Prop}
    {s : State α n m} {u : Update α n m} {us : List (Update α n m)} {e : Ending α n m} (hs : ¬D s)
    (hsome : p.newton? c s ≠ none) (h : (⟨u.state, us, e⟩ : Run α n m).FailsWhere p c D) :
    (⟨s, u :: us, e⟩ : Run α n m).FailsWhere p c D := by
  constructor
  · intro t ht
    rcases List.mem_cons.mp ht with rfl | ht
    · exact iff_of_true hsome hs
    · exact h.direction_iff t ht
  · rw [attempted_cons]
    simp only [List.mem_cons, exists_eq_or_imp, hs, false_or]
    exact h.failed_iff
  · intro hstatus
    obtain ⟨ts, hattempted, hfinal, hts⟩ := h.first hstatus
    rw [attempted_cons, final_cons]
    exact ⟨s :: ts, by rw [hattempted, List.cons_append], hfinal,
      List.forall_mem_cons.mpr ⟨hs, hts⟩⟩

/-- **What is known of every single direction says when a run fails**, if its values are always finite.
By induction on the course: a step is made from no state where `D` holds. -/
theorem Course.failsWhere {p : Problem α n m} {c : Settings α} {left : ℕ} {s : State α n m}
    {us : List (Update α n m)} {e : Ending α n m} (h : Course p c left s us e)
    {D : State α n m → Prop}
    (hfind : ∀ t ∈ (⟨s, us, e⟩ : Run α n m).visited, p.newton? c t ≠ none ↔ ¬D t)
    (hfinite : ∀ t ∈ (⟨s, us, e⟩ : Run α n m).visited, t.values.isFinite = true) :
    (⟨s, us, e⟩ : Run α n m).FailsWhere p c D := by
  have hmoves : ∀ {s : State α n m} {u}, p.Moves c s u → p.newton? c s ≠ none := by
    rintro s u ⟨d, hd, -⟩
    rw [hd]
    exact Option.some_ne_none d
  induction h with
  | iterationLimit s =>
    refine ⟨hfind, ?_, fun hstatus => by cases hstatus⟩
    simp [Run.report, Ending.status, Run.attempted, Run.states]
  | @noDirection left s none =>
    have hD : D s := by
      by_contra hnot
      exact (hfind s (Run.start_mem_visited _)).mpr hnot none
    refine ⟨hfind, ?_, fun _ => ⟨[], rfl, hD, List.forall_mem_nil _⟩⟩
    simpa [Run.report, Ending.status, Run.attempted, Run.states] using hD
  | @notFinite left s u move infinite =>
    have hvalues := hfinite u.state (Run.final_mem_visited _)
    rw [infinite] at hvalues
    cases hvalues
  | @converged left s u move finite pass =>
    have hnot : ¬D s := (hfind s (Run.start_mem_visited _)).mp (hmoves move)
    refine ⟨hfind, ?_, fun hstatus => by cases hstatus⟩
    simpa [Run.report, Ending.status, Run.attempted, Run.states] using hnot
  | @step left s u us e move finite fail rest ih =>
    have hsome := hmoves move
    have hnot : ¬D s := (hfind s (Run.start_mem_visited _)).mp hsome
    have hrest : ∀ t ∈ (⟨u.state, us, e⟩ : Run α n m).visited,
        t ∈ (⟨s, u :: us, e⟩ : Run α n m).visited := by
      intro t ht
      exact List.mem_cons_of_mem s ht
    refine .cons hnot hsome (ih ?_ ?_)
    · exact fun t ht => hfind t (hrest t ht)
    · exact fun t ht => hfinite t (hrest t ht)

end

/-! ### Searches -/

/-- Constraints and Jacobian are finite at every positive point. -/
def Problem.FiniteConstraints (p : Problem Exact n m) : Prop :=
  ∀ x : Fin n → ℝ, (∀ i, 0 < x i) →
    (p.constraint (Vec.ofReal x)).isFinite = true ∧ (p.jacobian (Vec.ofReal x)).isFinite = true

theorem Problem.Affine.finiteConstraints {p : Problem Exact n m} {A : Matrix (Fin m) (Fin n) ℝ}
    {b : Fin m → ℝ} (hp : p.Affine A b) : p.FiniteConstraints := by
  intro x _
  rw [hp.constraint_eq, hp.jacobian_eq]
  exact ⟨Vec.isFinite_ofReal _, Mat.isFinite_ofReal A⟩

section

variable {p : Problem Exact n m} {s : State Exact n m} {u : Iterate ℝ n m} {h : Fin m → ℝ}
  {A : Matrix (Fin m) (Fin n) ℝ}

theorem Problem.FiniteConstraints.exists_real (hp : p.FiniteConstraints) (hs : s.IsAt u) :
    ∃ (h : Fin m → ℝ) (A : Matrix (Fin m) (Fin n) ℝ),
      p.constraint (Vec.ofReal ⇑u.x) = Vec.ofReal h ∧ p.jacobian (Vec.ofReal ⇑u.x) = Mat.ofReal A := by
  obtain ⟨hconstraint, hjacobian⟩ := hp ⇑u.x hs.x_pos
  obtain ⟨h, hh⟩ := Vec.isFinite_iff.mp hconstraint
  obtain ⟨A, hA⟩ := Mat.isFinite_iff.mp hjacobian
  exact ⟨h, A, hh, hA⟩

/-- The values of a search are real where those of the constraints are. -/
theorem Problem.realValues_feasibility (hs : s.IsAt u)
    (hvalues : s.values = p.feasibility.evaluate s.x)
    (hh : p.constraint (Vec.ofReal ⇑u.x) = Vec.ofReal h)
    (hA : p.jacobian (Vec.ofReal ⇑u.x) = Mat.ofReal A) : s.RealValues (fun _ => 0) h A where
  gradient_eq := by
    rw [hvalues, ← Vec.const_coe, ← Exact.zero_eq]
    rfl
  constraint_eq := by
    rw [hvalues, ← hh, hs.x_eq]
    rfl
  jacobian_eq := by
    rw [hvalues, ← hA, hs.x_eq]
    rfl

/-- A search has second derivatives that vanish. -/
theorem Problem.realData_feasibility (hs : s.IsAt u)
    (hvalues : s.values = p.feasibility.evaluate s.x)
    (hh : p.constraint (Vec.ofReal ⇑u.x) = Vec.ofReal h)
    (hA : p.jacobian (Vec.ofReal ⇑u.x) = Mat.ofReal A) :
    s.RealData p.feasibility .diagonal (.diagonal (Vec.const n 0)) (fun _ => 0) h A where
  toRealValues := realValues_feasibility hs hvalues hh hA
  hessian_eq := by
    have hzero : Vec.const n (0 : Exact) = Vec.ofReal ⇑(Vec.const n (0 : ℝ)) := by
      apply Vec.ext
      intro i
      simp
    exact congrArg Hessian.diagonal hzero

theorem nonneg_zero : (Hessian.diagonal (Vec.const n (0 : ℝ))).Nonneg :=
  Hessian.PosSemidef.nonneg fun i => (Vec.const_apply (0 : ℝ) i).ge

/-- **When a search has a direction**: exactly when the rows of the Jacobian are independent. -/
theorem Problem.newton?_feasibility_ne_none_iff (hp : p.FiniteConstraints) {c : Settings Exact}
    (hscheme : c.scheme = .diagonal) {mu : ℝ} (hmu : c.mu = mu) (hs : s.IsAt u)
    (hvalues : s.values = p.feasibility.evaluate s.x) :
    p.feasibility.newton? c s ≠ none ↔ ¬(p.jacobian s.x).DependentRows := by
  obtain ⟨h, A, hh, hA⟩ := hp.exists_real hs
  have hreal := realData_feasibility hs hvalues hh hA
  rw [← hscheme] at hreal
  rw [newton?_ne_none_iff_row hs hmu hreal nonneg_zero, hs.x_eq, hA, Mat.dependentRows_ofReal_iff,
    not_not]

/-- The values of a search are finite at every real state. -/
theorem Problem.isFinite_feasibility (hp : p.FiniteConstraints) (hs : s.IsAt u)
    (hvalues : s.values = p.feasibility.evaluate s.x) : s.values.isFinite = true := by
  obtain ⟨h, A, hh, hA⟩ := hp.exists_real hs
  refine (realValues_feasibility hs hvalues hh hA).isFinite ?_
  rw [hvalues]
  exact Exact.isFinite_coe _

end

/-- A search is made by the diagonal. -/
theorem Options.scheme_of_check_forFeasibility {α : Type} [Scalar α] {o : Options α} {c : Settings α}
    (hc : o.forFeasibility.check = .ok c) : c.scheme = .diagonal := by
  have hscheme := (accepted_of_check hc).scheme_eq
  exact Option.some.inj (hscheme.symm.trans (HessianScheme.ofName?_name .diagonal))

/-- The run is the search from the start `s` for a feasible point of every problem with the constraints
of `p`, whatever its objective is and whichever scheme and method are asked for besides. -/
def Run.IsSearch (r : Run Exact n m) (p : Problem Exact n m) (o : Options Exact) (s : Start Exact) :
    Prop :=
  ∀ (w : Newton Exact) (objective : Vec Exact n → Exact) (gradient : Vec Exact n → Vec Exact n)
    (hessian : Vec Exact n → Vec Exact n → Hessian Exact n) (scheme method : String),
    ∃ w', w.feasible { p with objective, gradient, hessian }
      { o with hessian := scheme, kkt := method } s = .ok (r, w')

/-- What there is to say of a search with the settings `c`. -/
structure Run.Searches (r : Run Exact n m) (p : Problem Exact n m) (o : Options Exact) (s : Start ℝ)
    (c : Settings Exact) : Prop where
  /-- The settings are those of the search. -/
  check_eq : o.forFeasibility.check = .ok c
  /-- It is one and the same search for every objective. -/
  isSearch : r.IsSearch p o s.exact
  start_eq : r.start = (s.exact.iterate o.mu o.mux n m).evaluate p.feasibility
  /-- It stays in the interior. -/
  exists_isAt : ∀ t ∈ r.visited, ∃ u, t.IsAt u
  /-- It fails exactly where the rows of the Jacobian are dependent. -/
  failsWhere : r.FailsWhere p.feasibility c fun t => (p.jacobian t.x).DependentRows

/-- **A search fails exactly where the rows of the Jacobian are dependent, and it is one and the same
search for every objective.**  This holds for constraints that are linear or not, from every start, with
all options whose numbers are in bounds. -/
theorem Newton.exists_search (p : Problem Exact n m) (hp : p.FiniteConstraints) {o : Options Exact}
    (ho : o.Bounded) (hmux : 0 < o.mux) (s : Start ℝ) :
    ∃ (run : Run Exact n m) (c : Settings Exact), run.Searches p o s c := by
  obtain ⟨c, hc⟩ := o.exists_check_forFeasibility_iff.mpr ho
  have hscheme := Options.scheme_of_check_forFeasibility hc
  obtain ⟨mu, -, hmu, -, -, -, -⟩ := (Options.accepted_of_check hc).exists_real
  obtain ⟨run, hsame⟩ := Newton.exists_run p.feasibility hc s.exact
  obtain ⟨run', w', hsolve, hstart, hrun⟩ :=
    ({} : Newton Exact).overReals_of_solve p.feasibility hc hmux s
  obtain rfl : run' = run := by
    obtain ⟨v, hv⟩ := hsame {}
    exact (Prod.mk.inj (Except.ok.inj (hsolve.symm.trans hv))).1
  refine ⟨run', c, hc, fun w _ _ _ _ _ => hsame w, hstart, hrun.exists_isAt, ?_⟩
  refine hrun.course.failsWhere ?_ ?_
  · intro t ht
    obtain ⟨u, hu⟩ := hrun.exists_isAt t ht
    exact Problem.newton?_feasibility_ne_none_iff hp hscheme hmu hu (hrun.values_eq t ht)
  · intro t ht
    obtain ⟨u, hu⟩ := hrun.exists_isAt t ht
    exact Problem.isFinite_feasibility hp hu (hrun.values_eq t ht)

end Optimum

end GibbsNewton
