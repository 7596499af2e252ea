import GibbsNewton.Proofs.Optimum.RealRun

/-!
# The residual of affine constraints

When the constraints are affine, `h(x) = A x - b`, the Newton equation `A dx = -h(x)` says how the
residual changes: a step of length `a` along `dx` multiplies it by `1 - a`.  Neither the objective nor
its derivatives matter, right or wrong, since this equation is met by every direction that is found.
Over a run the factors multiply, and because every length is in `(0, 1]` no component of the residual
grows or changes its sign; a full step meets the constraints once and for all.

## Main definitions

* `Problem.Affine` — the constraints are affine, with the Jacobian that goes with them.

## Main results

* `Problem.Moves.residual` — **what one update does to the residual.**
* `Newton.residual_of_solve` — **the residual over a whole run.**
-/

namespace GibbsNewton.Optimum

open Matrix

variable {n m : ℕ}

/-- The constraints of a problem are affine, and its Jacobian is theirs. -/
structure Problem.Affine (p : Problem Exact n m) (A : Matrix (Fin m) (Fin n) ℝ) (b : Fin m → ℝ) :
    Prop where
  constraint_eq : ∀ x : Fin n → ℝ, p.constraint (Vec.ofReal x) = Vec.ofReal (A *ᵥ x - b)
  jacobian_eq : ∀ x : Fin n → ℝ, p.jacobian (Vec.ofReal x) = Mat.ofReal A

variable {p : Problem Exact n m} {c : Settings Exact} {s : State Exact n m} {u : Iterate ℝ n m}
  {A : Matrix (Fin m) (Fin n) ℝ} {b : Fin m → ℝ}

namespace Problem

/-- The constraints at a real state with its own values. -/
theorem Affine.constraint_of_isAt (hp : p.Affine A b) (hs : s.IsAt u)
    (hvalues : s.values = p.evaluate s.x) :
    s.values.constraint = Vec.ofReal (A *ᵥ ⇑u.x - b) := by
  rw [hvalues, hs.x_eq]
  exact hp.constraint_eq _

/-- The Jacobian at such a state is the matrix of the constraints. -/
theorem Affine.jacobian_of_isAt (hp : p.Affine A b) (hs : s.IsAt u)
    (hvalues : s.values = p.evaluate s.x) : s.values.jacobian = Mat.ofReal A := by
  rw [hvalues, hs.x_eq]
  exact hp.jacobian_eq _

/-- Every direction found at a real state points from the constraint residual to its zero. -/
theorem Affine.mulVec_direction (hp : p.Affine A b) (hs : s.IsAt u)
    (hvalues : s.values = p.evaluate s.x) {K : Kkt.System ℝ n m} {q : Kkt.Rhs ℝ n m}
    {d : Kkt.Direction ℝ n m} (hK : s.system p c.scheme = K.exact) (hq : s.rhs c.mu = q.exact)
    (hsolves : K.Solves d q) : A *ᵥ ⇑d.dx = -(A *ᵥ ⇑u.x - b) := by
  have hjacobian : K.jacobian.toMatrix = A :=
    (Mat.ofReal_inj.mp ((hp.jacobian_of_isAt hs hvalues).symm.trans
      (congrArg Kkt.System.jacobian hK))).symm
  have hry : ⇑q.ry = -(A *ᵥ ⇑u.x - b) := by
    have hneg : s.values.constraint.map (-·) = Vec.ofReal ⇑q.ry := congrArg Kkt.Rhs.ry hq
    rw [hp.constraint_of_isAt hs hvalues, Vec.neg_ofReal] at hneg
    exact (Vec.ofReal_inj.mp hneg).symm
  calc A *ᵥ ⇑d.dx = K.jacobian.toMatrix *ᵥ ⇑d.dx := by rw [hjacobian]
    _ = -(A *ᵥ ⇑u.x - b) := by rw [hsolves.feasibility, hry]

/-- **What one update does to the residual**: it is multiplied by one less the length that the
variables go. -/
theorem Moves.residual {v : Update Exact n m} (h : p.Moves c s v) (hp : p.Affine A b)
    (hs : s.IsAt u) (hvalues : s.values = p.evaluate s.x) {tau : ℝ} (htau : c.tau = tau)
    (hpos : 0 < tau) (hlt : tau < 1) :
    ∃ (w : Iterate ℝ n m) (a : ℝ), v.state.IsAt w ∧ v.lengths.along c.uniform = a ∧ 0 < a ∧ a ≤ 1 ∧
      A *ᵥ ⇑w.x - b = (1 - a) • (A *ᵥ ⇑u.x - b) := by
  obtain ⟨K, q, d, hK, hq, -, hsolves, hlengths, hw⟩ := h.exists_real hs htau hpos hlt
  have hdx : A *ᵥ ⇑d.dx = -(A *ᵥ ⇑u.x - b) := hp.mulVec_direction hs hvalues hK hq hsolves
  obtain ⟨ha, ha1⟩ := Iterate.along_reach (d := d) hs.x_pos hs.z_pos hpos c.uniform
  refine ⟨_, (u.reach d tau).along c.uniform, hw, ?_, ha, ha1, ?_⟩
  · rw [hlengths]
    cases c.uniform <;> rfl
  · set a := (u.reach d tau).along c.uniform
    have hx : ⇑(u.moved d (u.reach d tau) c.uniform).x = ⇑u.x + a • ⇑d.dx := Vec.get_of _
    rw [hx, mulVec_add, mulVec_smul, hdx]
    module

end Problem

/-! ### Whole runs -/

/-- What is known of the residual along a run with the updates `us`: the iterates `x`, the lengths `a`
that the variables went, and how they determine the residual. -/
structure Run.ResidualLaw (r : Run Exact n m) (A : Matrix (Fin m) (Fin n) ℝ) (b : Fin m → ℝ)
    (uniform : Bool) (us : List (Update Exact n m)) (x : ℕ → Fin n → ℝ) (a : ℕ → ℝ) : Prop where
  /-- The state after `k` updates has the variables `x k`, and its constraints are evaluated there. -/
  state : ∀ k ≤ us.length, ∃ s, r.visited[k]? = some s ∧ s.x = Vec.ofReal (x k) ∧
    s.values.constraint = Vec.ofReal (A *ᵥ x k - b)
  /-- The update numbered `k` goes the length `a k`. -/
  length : ∀ (k : ℕ) (hk : k < us.length), us[k].lengths.along uniform = a k ∧ 0 < a k ∧ a k ≤ 1
  /-- The residual is the first one times what each update left of it. -/
  product : ∀ k ≤ us.length,
    A *ᵥ x k - b = (∏ j ∈ Finset.range k, (1 - a j)) • (A *ᵥ x 0 - b)
  /-- No component grows or changes its sign. -/
  shrinks : ∀ k < us.length, ∀ i,
    |(A *ᵥ x (k + 1) - b) i| ≤ |(A *ᵥ x k - b) i| ∧
      0 ≤ (A *ᵥ x k - b) i * (A *ᵥ x (k + 1) - b) i
  /-- After a full step the constraints are met. -/
  met : ∀ j < us.length, a j = 1 → ∀ k, j < k → k ≤ us.length → A *ᵥ x k = b

/-- The law follows from what one update does. -/
theorem Run.residualLaw_of_step {r : Run Exact n m} {uniform : Bool} {us : List (Update Exact n m)}
    {x : ℕ → Fin n → ℝ} {a : ℕ → ℝ}
    (hstate : ∀ k ≤ us.length, ∃ s, r.visited[k]? = some s ∧ s.x = Vec.ofReal (x k) ∧
      s.values.constraint = Vec.ofReal (A *ᵥ x k - b))
    (hstep : ∀ (k : ℕ) (hk : k < us.length), us[k].lengths.along uniform = a k ∧ 0 < a k ∧
      a k ≤ 1 ∧ A *ᵥ x (k + 1) - b = (1 - a k) • (A *ᵥ x k - b)) :
    r.ResidualLaw A b uniform us x a := by
  have hproduct : ∀ k ≤ us.length,
      A *ᵥ x k - b = (∏ j ∈ Finset.range k, (1 - a j)) • (A *ᵥ x 0 - b) := by
    intro k
    induction k with
    | zero => simp
    | succ k ih =>
      intro hk
      obtain ⟨-, -, -, hnext⟩ := hstep k hk
      rw [hnext, ih (Nat.le_of_succ_le hk), smul_smul, Finset.prod_range_succ, mul_comm]
  refine ⟨hstate, fun k hk => ?_, hproduct, fun k hk i => ?_, fun j hj haj k hjk hk => ?_⟩
  · obtain ⟨halong, hpos, hle, -⟩ := hstep k hk
    exact ⟨halong, hpos, hle⟩
  · obtain ⟨-, hpos, hle, hnext⟩ := hstep k hk
    have hfactor : 0 ≤ 1 - a k := by linarith
    rw [hnext, Pi.smul_apply, smul_eq_mul, abs_mul, abs_of_nonneg hfactor]
    constructor
    · exact mul_le_of_le_one_left (abs_nonneg _) (by linarith)
    · rw [mul_left_comm]
      exact mul_nonneg hfactor (mul_self_nonneg _)
  · -- the factor of the full step is zero
    have hzero : ∏ j ∈ Finset.range k, (1 - a j) = 0 :=
      Finset.prod_eq_zero (Finset.mem_range.mpr hjk) (by rw [haj, sub_self])
    rw [← sub_eq_zero, hproduct k hk, hzero, zero_smul]

/-- **The residual over a whole run.**  Whatever the objective and the options, a solver answers a run
whose updates make the residual of affine constraints shrink by the law. -/
theorem Newton.residual_of_solve (w : Newton Exact) {p : Problem Exact n m}
    {A : Matrix (Fin m) (Fin n) ℝ} {b : Fin m → ℝ} (hp : p.Affine A b) {o : Options Exact}
    {c : Settings Exact} (ho : o.check = .ok c) (hmux : 0 < o.mux) (s : Start ℝ) :
    ∃ run w' us x a, w.solve p o s.exact = .ok (run, w') ∧
      run.start = (s.exact.iterate o.mu o.mux n m).evaluate p ∧ run.AllUpdates p c us ∧
      run.ResidualLaw A b o.uniform us x a := by
  obtain ⟨run, w', hw', hstart, hrun⟩ := w.overReals_of_solve p ho hmux s
  have hacc := Options.accepted_of_check ho
  obtain ⟨mu, tau, hmu, htau, hmupos, htaupos, htaulr⟩ := hacc.exists_real
  rw [← hacc.uniform_eq]
  obtain ⟨us, hus⟩ : ∃ us, run.AllUpdates p c us := hrun.course.exists_allUpdates
  have hvisited : ∀ k ≤ us.length, ∃ t u, run.visited[k]? = some t ∧ t.IsAt u ∧
      t.values = p.evaluate t.x := by
    intro k hk
    have hlen : k < run.visited.length := by rw [run.length_visited, ← hus.length_eq]; omega
    obtain ⟨u, hu⟩ := hrun.exists_isAt _ (List.getElem_mem hlen)
    exact ⟨_, u, List.getElem?_eq_getElem hlen, hu, hrun.values_eq _ (List.getElem_mem hlen)⟩
  obtain ⟨_, ⟨u₀, -⟩⟩ := hvisited 0 (Nat.zero_le _)
  have : Nonempty (State Exact n m) := ⟨run.start⟩
  have : Nonempty (Iterate ℝ n m) := ⟨u₀⟩
  choose! t u ht hu hval using hvisited
  have hstep : ∀ (k : ℕ) (hk : k < us.length), ∃ a : ℝ, us[k].lengths.along c.uniform = a ∧
      0 < a ∧ a ≤ 1 ∧ A *ᵥ ⇑(u (k + 1)).x - b = (1 - a) • (A *ᵥ ⇑(u k).x - b) := by
    intro k hk
    obtain ⟨s', hs', hmove, hnext⟩ := hus.moves k hk
    obtain rfl : t k = s' := Option.some.inj ((ht k hk.le).symm.trans hs')
    obtain ⟨v, a, hv, halong, hpos, hle, hres⟩ :=
      hmove.residual hp (hu k hk.le) (hval k hk.le) htau htaupos htaulr
    have hsame : us[k].state = t (k + 1) := Option.some.inj (hnext.symm.trans (ht (k + 1) hk))
    have hx : ⇑(u (k + 1)).x = ⇑v.x := by
      rw [← Vec.ofReal_inj, ← (hu (k + 1) hk).x_eq, ← hv.x_eq, hsame]
    exact ⟨a, halong, hpos, hle, by rw [hx, hres]⟩
  choose! a ha using hstep
  refine ⟨run, w', us, fun k => ⇑(u k).x, a, hw', hstart, hus,
    Run.residualLaw_of_step (fun k hk => ?_) ha⟩
  exact ⟨t k, ht k hk, (hu k hk).x_eq, hp.constraint_of_isAt (hu k hk) (hval k hk)⟩

theorem affine_shares : shares.Affine !![1, 1] ![1] where
  constraint_eq x := by
    apply Vec.ext
    intro j
    simp [shares, dotProduct, Fin.sum_univ_two]
  jacobian_eq x := by
    apply Mat.ext_apply
    intro j i
    fin_cases i <;> simp [shares]

/-- The residual over the run that shares out a whole from no start at all. -/
theorem Newton.residual_of_solve_shares :
    ∃ c, (Options.default : Options Exact).check = .ok c ∧ 0 < (Options.default : Options Exact).mux ∧
      ∃ run w' us x a, ({} : Newton Exact).solve shares Options.default (Start.exact {}) =
          .ok (run, w') ∧
        run.start = ((Start.exact {}).iterate (Options.default : Options Exact).mu
          Options.default.mux 2 1).evaluate shares ∧
        run.AllUpdates shares c us ∧
        run.ResidualLaw !![1, 1] ![1] (Options.default : Options Exact).uniform us x a := by
  obtain ⟨c, hc⟩ := Options.exists_check_default
  exact ⟨c, hc, Options.mux_default_pos,
    residual_of_solve {} affine_shares hc Options.mux_default_pos {}⟩

end GibbsNewton.Optimum
