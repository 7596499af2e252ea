import GibbsNewton.Proofs.Optimum.RealRun

/-!
# Runs in lock-step

The method for the Newton systems and the form of the second derivatives are choices of linear algebra,
and a run does not depend on them.  Two configurations that find the same direction at every state from
which a step is attempted make the same run; and if one of them finds nothing at some of these states,
its run is the other one up to the first of them.  The full-space and the null-space method always find
the same; the range-space method finds nothing where the curvature is singular.

## Main definitions

* `Run.attempted` — the states from which a run attempted a step.
* `Run.StopsAt` — a run is another one up to the first state of a kind.
* `Hessian.IsDiagonal` — no second derivative off the diagonal.
* `Run.SharedByMethods` — the run is the one that every method makes, as far as it gets.

## Main results

* `Course.stopsAt` — **two configurations in lock-step.**
* `Course.unique`, `Newton.exists_run` — a run is determined by the problem, the options and the start.
* `Newton.sharedByMethods_of_solve` — **the configuration of the linear algebra does not change the
  run.**
-/

namespace GibbsNewton

variable {n m : ℕ}

namespace Optimum

section

variable {α : Type}

/-- The states from which a run attempted a step: all of them, except that a run that converged or used
up its iterations attempted none from the last. -/
def Run.attempted (r : Run α n m) : List (State α n m) :=
  match r.ending with
  | .converged => r.states.dropLast
  | .iterationLimit => r.states.dropLast
  | .noDirection => r.states
  | .notFinite _ => r.states

theorem Run.attempted_cons (s : State α n m) (u : Update α n m) (us : List (Update α n m))
    (e : Ending α n m) :
    (⟨s, u :: us, e⟩ : Run α n m).attempted = s :: (⟨u.state, us, e⟩ : Run α n m).attempted := by
  cases e <;> rfl

theorem Run.mem_visited_of_mem_attempted {r : Run α n m} {t : State α n m}
    (ht : t ∈ r.attempted) : t ∈ r.visited := by
  have hstates : t ∈ r.states := by
    unfold attempted at ht
    cases he : r.ending with
    | converged => rw [he] at ht; exact List.mem_of_mem_dropLast ht
    | iterationLimit => rw [he] at ht; exact List.mem_of_mem_dropLast ht
    | noDirection => rw [he] at ht; exact ht
    | notFinite => rw [he] at ht; exact ht
  exact List.mem_append_left _ hstates

/-- The run `r'` is the run `r` up to the first of the states with `S` from which `r` attempted a step,
and ends there for want of a direction; without such a state it is all of `r`. -/
def Run.StopsAt (r : Run α n m) (S : State α n m → Prop) (r' : Run α n m) : Prop :=
  (∀ t ∈ r.attempted, ¬S t) ∧ r' = r ∨
    ∃ k t, r.attempted[k]? = some t ∧ S t ∧ (∀ t' ∈ r.attempted.take k, ¬S t') ∧
      r' = ⟨r.start, r.updates.take k, .noDirection⟩

theorem Run.StopsAt.eq_of_forall_not {r r' : Run α n m} {S : State α n m → Prop}
    (h : r.StopsAt S r') (hS : ∀ t, ¬S t) : r' = r := by
  obtain ⟨-, hr⟩ | ⟨k, t, -, ht, -⟩ := h
  · exact hr
  · exact absurd ht (hS t)

/-- A run that attempts its first step from a state with `S` stops there. -/
theorem Run.StopsAt.first {r : Run α n m} {S : State α n m → Prop}
    (h : r.attempted[0]? = some r.start) (hS : S r.start) :
    r.StopsAt S ⟨r.start, [], .noDirection⟩ :=
  .inr ⟨0, r.start, h, hS, by simp, rfl⟩

theorem Run.StopsAt.cons {s : State α n m} {u : Update α n m} {us us' : List (Update α n m)}
    {e e' : Ending α n m} {S : State α n m → Prop} (hs : ¬S s)
    (h : (⟨u.state, us, e⟩ : Run α n m).StopsAt S ⟨u.state, us', e'⟩) :
    (⟨s, u :: us, e⟩ : Run α n m).StopsAt S ⟨s, u :: us', e'⟩ := by
  unfold StopsAt at h ⊢
  rw [attempted_cons]
  obtain ⟨hall, hr⟩ | ⟨k, t, ht, hSt, hfirst, hr⟩ := h
  · obtain ⟨rfl, rfl⟩ := (Run.mk.injEq ..).mp hr |>.2
    exact .inl ⟨List.forall_mem_cons.mpr ⟨hs, hall⟩, rfl⟩
  · obtain ⟨rfl, rfl⟩ := (Run.mk.injEq ..).mp hr |>.2
    exact .inr ⟨k + 1, t, ht, hSt, List.forall_mem_cons.mpr ⟨hs, hfirst⟩, rfl⟩

variable [Scalar α] {p p' : Problem α n m} {c c' : Settings α} {left : ℕ} {s : State α n m}
  {us us' : List (Update α n m)} {e e' : Ending α n m} {S : State α n m → Prop}

/-- **Two configurations in lock-step.**  Let one find at each attempted state of the other's run the
same direction, or nothing when the state has `S`.  Then it makes the same run up to the first state
with `S`. -/
theorem Course.stopsAt (h : Course p c left s us e) (h' : Course p' c' left s us' e')
    (hupdate : ∀ t d, p'.update c' t d = p.update c t d)
    (hpasses : ∀ t : State α n m, t.passes c' = t.passes c)
    (hfind : ∀ t ∈ (⟨s, us, e⟩ : Run α n m).attempted,
      (S t → p'.newton? c' t = none) ∧ (¬S t → p'.newton? c' t = p.newton? c t)) :
    (⟨s, us, e⟩ : Run α n m).StopsAt S ⟨s, us', e'⟩ := by
  have hmoves : ∀ {t u}, p'.newton? c' t = p.newton? c t → p.Moves c t u → p'.Moves c' t u := by
    rintro t u hsame ⟨d, hd, rfl⟩
    exact ⟨d, hsame.trans hd, (hupdate t d).symm⟩
  -- Whatever the next step is, at a state with `S` the other run makes none.
  have hstop : ∀ {left s us us' e e'}, (⟨s, us, e⟩ : Run α n m).attempted[0]? = some s → S s →
      (S s → p'.newton? c' s = none) → Course p' c' (left + 1) s us' e' →
        (⟨s, us, e⟩ : Run α n m).StopsAt S ⟨s, us', e'⟩ := by
    intro left s us us' e e' hfirst hS hnone h'
    obtain ⟨rfl, rfl⟩ := h'.of_newton?_eq_none (hnone hS)
    exact .first hfirst hS
  induction h generalizing us' e' with
  | iterationLimit s =>
    cases h'
    exact .inl ⟨by simp [Run.attempted, Run.states], rfl⟩
  | @noDirection left s none =>
    obtain ⟨hnone, hsame⟩ := hfind s (by simp [Run.attempted, Run.states])
    by_cases hS : S s
    · exact hstop rfl hS hnone h'
    · obtain ⟨rfl, rfl⟩ := h'.of_newton?_eq_none ((hsame hS).trans none)
      exact .inl ⟨by simpa [Run.attempted, Run.states] using hS, rfl⟩
  | @notFinite left s u move infinite =>
    obtain ⟨hnone, hsame⟩ := hfind s (by simp [Run.attempted, Run.states])
    by_cases hS : S s
    · exact hstop rfl hS hnone h'
    · obtain ⟨rfl, rfl⟩ := h'.of_moves_notFinite (hmoves (hsame hS) move) infinite
      exact .inl ⟨by simpa [Run.attempted, Run.states] using hS, rfl⟩
  | @converged left s u move finite pass =>
    obtain ⟨hnone, hsame⟩ := hfind s (by simp [Run.attempted, Run.states])
    by_cases hS : S s
    · exact hstop rfl hS hnone h'
    · obtain ⟨rfl, rfl⟩ := h'.of_moves_passes (hmoves (hsame hS) move) finite ((hpasses _).trans pass)
      exact .inl ⟨by simpa [Run.attempted, Run.states] using hS, rfl⟩
  | @step left s u us e move finite fail rest ih =>
    rw [Run.attempted_cons] at hfind
    obtain ⟨⟨hnone, hsame⟩, hrest⟩ := List.forall_mem_cons.mp hfind
    by_cases hS : S s
    · exact hstop (by rw [Run.attempted_cons]; rfl) hS hnone h'
    · obtain ⟨vs, rfl, hvs⟩ := h'.of_moves_fails (hmoves (hsame hS) move) finite
        ((hpasses _).trans fail)
      exact .cons hS (ih hvs hrest)

/-- **A course is determined** by the state and the iterations left. -/
theorem Course.unique (h : Course p c left s us e) (h' : Course p c left s us' e') :
    us' = us ∧ e' = e := by
  have hstop := h.stopsAt (S := fun _ => False) h' (fun _ _ => rfl) (fun _ => rfl) fun _ _ =>
    ⟨False.elim, fun _ => rfl⟩
  have hrun := hstop.eq_of_forall_not fun _ => id
  exact ((Run.mk.injEq ..).mp hrun).2

/-- A run does not depend on what the solver of its Newton systems has done before. -/
theorem Problem.run_fst_eq (p : Problem α n m) (c : Settings α) (kkt kkt' : Kkt.Solver α)
    (s : Start α) : (p.run c kkt' s).1 = (p.run c kkt s).1 := by
  obtain ⟨hupdates, hending⟩ := (p.course_run c kkt s).unique (p.course_run c kkt' s)
  exact (Run.mk.injEq ..).mpr ⟨rfl, hupdates, hending⟩

/-- **All solvers answer one run**, whatever they were used for before. -/
theorem Newton.exists_run (p : Problem α n m) {o : Options α} (ho : o.check = .ok c) (s : Start α) :
    ∃ run : Run α n m, ∀ w : Newton α, ∃ w', w.solve p o s = .ok (run, w') := by
  refine ⟨(p.run c (.new .fullspace) s).1, fun w => ?_⟩
  rw [p.run_fst_eq c w.kkt]
  exact w.solve_eq_ok p ho s

end

end Optimum

/-! ### The form of second derivatives -/

/-- Every second derivative off the diagonal is zero. -/
def Hessian.IsDiagonal (H : Hessian Exact n) : Prop := ∀ i j, i ≠ j → H.toMat i j = 0

/-- A scheme changes no more than the form of a diagonal. -/
theorem Hessian.IsDiagonal.toMat_apply {H : Hessian Exact n} (h : H.IsDiagonal)
    (scheme : Optimum.HessianScheme) : (scheme.apply H).toMat = H.toMat := by
  cases scheme with
  | exact => rfl
  | diagonal =>
    apply Mat.ext_apply
    intro i j
    by_cases hij : i = j
    · subst hij
      cases H <;> simp [Optimum.HessianScheme.apply, toMat, toDiagonal]
    · rw [h i j hij]
      simp [Optimum.HessianScheme.apply, toMat, hij]

namespace Optimum

theorem HessianScheme.ofName?_name (scheme : HessianScheme) :
    ofName? scheme.name = some scheme := by
  cases scheme <;> decide

/-- Accepted options stay so with another scheme and another method. -/
theorem Options.check_of_names {α : Type} [Scalar α] {o : Options α} {c : Settings α}
    (ho : o.check = .ok c) {hessian kkt : String} {scheme : HessianScheme} {method : Kkt.Method}
    (hscheme : HessianScheme.ofName? hessian = some scheme)
    (hmethod : Kkt.Method.ofName? kkt = some method) :
    ({ o with hessian, kkt } : Options α).check = .ok { c with scheme, method } := by
  have hacc := accepted_of_check ho
  exact Accepted.check_eq { hacc with scheme_eq := hscheme, method_eq := hmethod }

/-- The numbers are all that a search for a feasible point can be refused for. -/
theorem Options.exists_check_forFeasibility_iff {α : Type} [Scalar α] (o : Options α) :
    (∃ c, o.forFeasibility.check = .ok c) ↔ o.Bounded := by
  rw [exists_check_iff]
  constructor
  · exact fun h => h.2.2
  · intro h
    refine ⟨?_, ?_, h⟩
    · exact (HessianScheme.ofName?_name .diagonal).symm ▸ Option.some_ne_none _
    · exact (Kkt.Method.ofName?_name .rangespace).symm ▸ Option.some_ne_none _

/-! ### Whole runs -/

/-- **The course of a run in another configuration.**  Only the scheme, the method and the form of the
second derivatives differ from those of the run `r`. -/
theorem Run.OverReals.stopsAt {r : Run Exact n m} {p : Problem Exact n m} {c : Settings Exact}
    (hr : r.OverReals p c) (hc : c.method ≠ .rangespace)
    {H : Vec Exact n → Vec Exact n → Hessian Exact n} {scheme : HessianScheme} {method : Kkt.Method}
    (halike : ∀ t ∈ r.visited,
      (t.system p c.scheme).Alike (t.system { p with hessian := H } scheme))
    {us' : List (Update Exact n m)} {e' : Ending Exact n m}
    (h' : Course { p with hessian := H } { c with scheme, method } c.maxIterations r.start us' e') :
    r.StopsAt (fun t => method = .rangespace ∧ (t.system p c.scheme).SingularCurvature)
      ⟨r.start, us', e'⟩ := by
  refine hr.course.stopsAt h' (fun _ _ => rfl) (fun _ => rfl) fun t ht => ?_
  have hvisited := Run.mem_visited_of_mem_attempted ht
  obtain ⟨u, hu⟩ := hr.exists_isAt t hvisited
  have hx : ∀ i, 0 < (t.system p c.scheme).x i := hu.interior.x_pos
  have hsame := halike t hvisited
  constructor
  · rintro ⟨hrange, hsingular⟩
    refine Kkt.Solver.direction?_eq_none_of_singular (k := .new method) ?_ hrange
      (hsame.singularCurvature_iff.mpr hsingular)
    rw [hsame.x]
    exact hx
  · intro hnot
    have hfull : (.new c.method : Kkt.Solver Exact).method = .rangespace →
        ¬(t.system p c.scheme).SingularCurvature := fun hrange => absurd hrange hc
    have hother : (.new method : Kkt.Solver Exact).method = .rangespace →
        ¬(t.system p c.scheme).SingularCurvature := fun hrange hsingular => hnot ⟨hrange, hsingular⟩
    exact Kkt.Solver.direction?_eq_of_alike hx hsame hfull hother

/-- The run `r` is the one that a solver answers, whatever it was used for before, with the full-space
and with the null-space method; and with the range-space method as far as the first state with `S` from
which a step is attempted. -/
structure Run.SharedByMethods (r : Run Exact n m) (p : Problem Exact n m) (o : Options Exact)
    (s : Start Exact) (S : State Exact n m → Prop) : Prop where
  fullspace : ∀ w : Newton Exact, ∃ w',
    w.solve p { o with kkt := Kkt.Method.fullspace.name } s = .ok (r, w')
  nullspace : ∀ w : Newton Exact, ∃ w',
    w.solve p { o with kkt := Kkt.Method.nullspace.name } s = .ok (r, w')
  rangespace : ∀ w : Newton Exact, ∃ r' w',
    w.solve p { o with kkt := Kkt.Method.rangespace.name } s = .ok (r', w') ∧ r.StopsAt S r'

/-- A full-space run is shared by the methods in every configuration whose Newton systems are alike at
the states that it visits. -/
theorem Run.OverReals.sharedByMethods {r : Run Exact n m} {p : Problem Exact n m}
    {o : Options Exact} {c : Settings Exact} (ho : o.check = .ok c) {s : Start Exact}
    (hr : r.OverReals p { c with method := .fullspace })
    (hstart : r.start = (s.iterate o.mu o.mux n m).evaluate p)
    {H : Vec Exact n → Vec Exact n → Hessian Exact n} {name : String} {scheme : HessianScheme}
    (hscheme : HessianScheme.ofName? name = some scheme)
    (halike : ∀ t ∈ r.visited,
      (t.system p c.scheme).Alike (t.system { p with hessian := H } scheme)) :
    r.SharedByMethods { p with hessian := H } { o with hessian := name } s
      fun t => (t.system p c.scheme).SingularCurvature := by
  have hmethod : ∀ (method : Kkt.Method) (w : Newton Exact), ∃ r' w',
      w.solve { p with hessian := H } { o with hessian := name, kkt := method.name } s =
        .ok (r', w') ∧
      r.StopsAt (fun t => method = .rangespace ∧ (t.system p c.scheme).SingularCurvature) r' := by
    intro method w
    have hcheck := Options.check_of_names ho hscheme (Kkt.Method.ofName?_name method)
    obtain ⟨w', hw'⟩ := w.solve_eq_ok { p with hessian := H } hcheck s
    refine ⟨_, w', hw', ?_⟩
    have hcourse := Problem.course_run { p with hessian := H } { c with scheme, method } w.kkt s
    -- the start is made of the same numbers in both configurations
    have hacc := Options.accepted_of_check ho
    have hsame : ((s.iterate c.mu c.mux n m).evaluate { p with hessian := H } : State Exact n m) =
        r.start := by
      rw [hstart, hacc.mu_eq, hacc.mux_eq]
      rfl
    have hstop := hr.stopsAt (by simp) halike (hsame ▸ hcourse)
    rwa [← hsame] at hstop
  refine ⟨fun w => ?_, fun w => ?_, fun w => ?_⟩
  · obtain ⟨r', w', hw', hstop⟩ := hmethod .fullspace w
    rw [hstop.eq_of_forall_not (by simp)] at hw'
    exact ⟨w', hw'⟩
  · obtain ⟨r', w', hw', hstop⟩ := hmethod .nullspace w
    rw [hstop.eq_of_forall_not (by simp)] at hw'
    exact ⟨w', hw'⟩
  · obtain ⟨r', w', hw', hstop⟩ := hmethod .rangespace w
    exact ⟨r', w', hw', by simpa using hstop⟩

/-- **The configuration of the linear algebra does not change the run.**  There is one run for the
full-space and the null-space method, which the range-space method makes up to the first state with a
singular curvature.  Where no second derivative off the diagonal is met on the way, it is also the run
by the other scheme and with second derivatives in another form. -/
theorem Newton.sharedByMethods_of_solve (p : Problem Exact n m) {o : Options Exact}
    {c : Settings Exact} (ho : o.check = .ok c) (hmux : 0 < o.mux) (s : Start ℝ) :
    ∃ run : Run Exact n m,
      run.start = (s.exact.iterate o.mu o.mux n m).evaluate p ∧
      run.SharedByMethods p o s.exact (fun t => (t.system p c.scheme).SingularCurvature) ∧
      ∀ (H : Vec Exact n → Vec Exact n → Hessian Exact n) (scheme : HessianScheme),
        (∀ t ∈ run.visited, (p.hessian t.x t.values.gradient).IsDiagonal ∧
          (H t.x t.values.gradient).toMat = (p.hessian t.x t.values.gradient).toMat) →
        run.SharedByMethods { p with hessian := H } { o with hessian := scheme.name } s.exact
          fun t => (t.system p c.scheme).SingularCurvature := by
  have hacc := Options.accepted_of_check ho
  have hfull := Options.check_of_names ho hacc.scheme_eq (Kkt.Method.ofName?_name .fullspace)
  obtain ⟨run, -, -, hstart, hrun⟩ := Newton.overReals_of_solve {} p hfull hmux s
  refine ⟨run, hstart, ?_, fun H scheme hdiagonal => ?_⟩
  · exact hrun.sharedByMethods ho hstart hacc.scheme_eq fun t _ => ⟨rfl, rfl, rfl, rfl⟩
  · refine hrun.sharedByMethods ho hstart scheme.ofName?_name fun t ht => ⟨?_, rfl, rfl, rfl⟩
    obtain ⟨hp, hH⟩ := hdiagonal t ht
    have hH' : (H t.x t.values.gradient).IsDiagonal := by
      intro i j hij
      rw [hH, hp i j hij]
    calc (scheme.apply (H t.x t.values.gradient)).toMat
        = (H t.x t.values.gradient).toMat := hH'.toMat_apply scheme
      _ = (p.hessian t.x t.values.gradient).toMat := hH
      _ = (c.scheme.apply (p.hessian t.x t.values.gradient)).toMat :=
        (hp.toMat_apply c.scheme).symm

/-- The run that shares out a whole from no start at all, with second derivatives as a vector and as a
matrix. -/
theorem Newton.sharedByMethods_of_solve_shares :
    ∃ c, (Options.default : Options Exact).check = .ok c ∧ 0 < (Options.default : Options Exact).mux ∧
      ∃ run : Run Exact 2 1,
        run.start = ((Start.exact {}).iterate (Options.default : Options Exact).mu
          Options.default.mux 2 1).evaluate shares ∧
        run.SharedByMethods shares Options.default (Start.exact {})
          (fun t => (t.system shares c.scheme).SingularCurvature) ∧
        ∀ scheme : HessianScheme,
          run.SharedByMethods { shares with hessian := fun _ _ => .dense (Mat.diagonal (Vec.const 2 0)) }
            { (Options.default : Options Exact) with hessian := scheme.name } (Start.exact {})
            fun t => (t.system shares c.scheme).SingularCurvature := by
  obtain ⟨c, hc⟩ := Options.exists_check_default
  obtain ⟨run, hstart, hshared, hdiagonal⟩ :=
    sharedByMethods_of_solve shares hc Options.mux_default_pos {}
  refine ⟨c, hc, Options.mux_default_pos, run, hstart, hshared, fun scheme => ?_⟩
  refine hdiagonal _ scheme fun t _ => ⟨fun i j hij => ?_, rfl⟩
  simp [shares, Hessian.toMat]

end Optimum

end GibbsNewton
