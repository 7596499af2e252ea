import GibbsNewton.Proofs.Optimum.RealRun
import GibbsNewton.Proofs.Optimum.SideBySide

/-!
# Tilted objectives

Where the Jacobian `A` of the constraints is constant, an objective may be tilted by `l·(A x)`, which
is the same at all points that meet the constraints.  Its gradient grows by `Aᵀ l` and its second
derivatives stay, and if the constraint multipliers grow by `l` as well, the gradient of the Lagrangian
stays too.  A full step takes care of this by itself: whatever the constraint multipliers were before,
after a step they are those of the other run with `l` added, because both solve the same equations for
`y + dy`.  So the two runs go through the same variables and bound multipliers by steps of the same
lengths, and end alike.  With `l = 0` this says that the constraint multipliers that a run starts from
have no influence on it.

None of this holds of steps with one common length, which is less than a full step for the constraint
multipliers.

## Main definitions

* `Problem.Tilted` — two problems that differ by such a tilt of the objective.
* `State.Beside`, `State.Tilted` — two states with the same variables and bound multipliers, and with
  constraint multipliers that differ by the tilt.
* `Run.Tilted` — two runs that differ by the tilt of the constraint multipliers after the first step.

## Main results

* `Kkt.Solver.direction?_shift` — a direction for a right-hand side that is shifted along `Aᵀ`.
* `Problem.Tilted.sideBySide` — **one step of a problem and of a tilted one.**
* `Newton.tilted_of_solve` — **a tilt changes nothing but the constraint multipliers.**
-/

namespace GibbsNewton

open Matrix

variable {n m : ℕ}

/-- Adding zeros changes nothing, not even an entry that is not finite. -/
theorem Vec.add_ofReal_zero (v : Vec Exact n) : v.add (Vec.ofReal 0) = v := by
  apply Vec.ext
  intro i
  cases hi : v i with
  | real a => simp [hi]
  | undefined => simp [hi]; rfl

/-! ### Directions -/

namespace Kkt

variable {k : Solver Exact} {s : System Exact n m} {r : Rhs Exact n m} {d : Direction Exact n m}
  {A : Matrix (Fin m) (Fin n) ℝ}

/-- A right-hand side with `Aᵀ v` taken from its stationarity block. -/
noncomputable def Rhs.shift (r : Rhs Exact n m) (A : Matrix (Fin m) (Fin n) ℝ) (v : Fin m → ℝ) :
    Rhs Exact n m :=
  { r with rx := r.rx.sub (Vec.ofReal (Aᵀ *ᵥ v)) }

/-- A direction with `v` added to the change of the constraint multipliers. -/
noncomputable def Direction.shift (d : Direction Exact n m) (v : Fin m → ℝ) :
    Direction Exact n m :=
  { d with dy := d.dy.add (Vec.ofReal v) }

theorem Rhs.shift_neg (r : Rhs Exact n m) (A : Matrix (Fin m) (Fin n) ℝ) (v : Fin m → ℝ) :
    (r.shift A v).shift A (-v) = r := by
  unfold shift
  congr 1
  apply Vec.ext
  intro i
  rw [mulVec_neg]
  cases hi : r.rx i <;> simp [hi]
  rfl

/-- What is added to the constraint multipliers comes back in the stationarity block. -/
theorem System.Solves.shift {t : System ℝ n m} {e : Direction ℝ n m} {q : Rhs ℝ n m}
    (h : t.Solves e q) (v : Fin m → ℝ) :
    t.Solves { e with dy := Vec.of (⇑e.dy + v) }
      { q with rx := Vec.of (⇑q.rx - t.jacobian.toMatrixᵀ *ᵥ v) } where
  stationarity := by
    rw [Vec.get_of, Vec.get_of, ← h.stationarity, mulVec_add]
    abel
  feasibility := h.feasibility
  centrality := h.centrality

/-- **A direction for a shifted right-hand side** is the shifted direction. -/
theorem Solver.direction?_shift (hA : s.jacobian = Mat.ofReal A) (v : Fin m → ℝ)
    (hd : (k.direction? s r).1 = some d) :
    (k.direction? s (r.shift A v)).1 = some (d.shift v) := by
  obtain ⟨t, q, e, rfl, rfl, rfl, hx, hK, hG, hsolves⟩ := direction?_eq_some_iff_solves.mp hd
  have hjacobian : t.jacobian.toMatrix = A := Mat.ofReal_inj.mp hA
  refine direction?_eq_some_iff_solves.mpr
    ⟨t, _, _, rfl, ?_, ?_, hx, hK, hG, hsolves.shift v⟩
  · simp [Rhs.shift, Rhs.exact, hjacobian]
  · simp [Direction.shift, Direction.exact]

end Kkt

namespace Optimum

/-! ### Problems and states -/

/-- The objective of `p'` is that of `p` tilted by `l·(A x)`, as far as values and derivatives tell,
where `A` is the Jacobian of the constraints of both. -/
structure Problem.Tilted (p p' : Problem Exact n m) (A : Matrix (Fin m) (Fin n) ℝ) (l : Fin m → ℝ) :
    Prop where
  isFinite_objective : ∀ x, Scalar.isFinite (p'.objective x) = Scalar.isFinite (p.objective x)
  gradient_eq : ∀ x, p'.gradient x = (p.gradient x).add (Vec.ofReal (Aᵀ *ᵥ l))
  hessian_eq : ∀ x g g', p'.hessian x g' = p.hessian x g
  constraint_eq : ∀ x, p'.constraint x = p.constraint x
  jacobian_eq : ∀ x, p.jacobian x = Mat.ofReal A
  jacobian_eq' : ∀ x, p'.jacobian x = Mat.ofReal A

/-- Two states, of one problem each, with the same variables and bound multipliers and with real
constraint multipliers. -/
structure State.Beside (s s' : State Exact n m) (p p' : Problem Exact n m) : Prop where
  x_eq : s'.x = s.x
  z_eq : s'.z = s.z
  exists_y : ∃ y, s.y = Vec.ofReal y
  exists_y' : ∃ y, s'.y = Vec.ofReal y
  values_eq : s.values = p.evaluate s.x
  values_eq' : s'.values = p'.evaluate s'.x

/-- Two states after `k` updates: they are beside each other, and once a step was made the constraint
multipliers of the second are those of the first with `l` added. -/
structure State.Tilted (p p' : Problem Exact n m) (l : Fin m → ℝ) (k : ℕ) (s s' : State Exact n m) :
    Prop extends s.Beside s' p p' where
  y_eq : 0 < k → s'.y = s.y.add (Vec.ofReal l)

variable {p p' : Problem Exact n m} {c : Settings Exact} {s s' : State Exact n m}
  {A : Matrix (Fin m) (Fin n) ℝ} {l : Fin m → ℝ}

/-- A zero tilt is none. -/
theorem Problem.Tilted.of_zero (hessian_eq : ∀ x g g', p.hessian x g' = p.hessian x g)
    (jacobian_eq : ∀ x, p.jacobian x = Mat.ofReal A) : p.Tilted p A 0 where
  isFinite_objective _ := rfl
  gradient_eq x := by rw [mulVec_zero, Vec.add_ofReal_zero]
  hessian_eq := hessian_eq
  constraint_eq _ := rfl
  jacobian_eq := jacobian_eq
  jacobian_eq' := jacobian_eq

namespace Problem.Tilted

variable (hp : p.Tilted p' A l) (hs : s.Beside s' p p')

include hp hs

theorem system_eq (scheme : HessianScheme) : s'.system p' scheme = s.system p scheme := by
  unfold State.system
  rw [hs.values_eq, hs.values_eq', hs.x_eq, hs.z_eq, hp.hessian_eq _ (p.evaluate s.x).gradient]
  simp only [evaluate, hp.jacobian_eq, hp.jacobian_eq']

/-- The gradient of the Lagrangian grows by what the tilt adds and the multipliers do not take away. -/
theorem lagrangian_apply {y y' : Fin m → ℝ} (hy : s.y = Vec.ofReal y) (hy' : s'.y = Vec.ofReal y')
    (i : Fin n) :
    s'.lagrangian i = s.lagrangian i + ((Aᵀ *ᵥ (l + y - y')) i : ℝ) := by
  have hreal : ∀ g z : Exact, ∀ a b b' : ℝ,
      g + (a : Exact) - (b' : Exact) - z = g - (b : Exact) - z + ((a + b - b' : ℝ) : Exact) := by
    intro g z a b b'
    cases g with
    | undefined => rfl
    | real g =>
      cases z with
      | undefined => rfl
      | real z =>
        simp only [Exact.add_coe, Exact.sub_coe, Exact.coe_inj]
        ring
  unfold State.lagrangian
  rw [hs.values_eq, hs.values_eq', hs.x_eq, hs.z_eq, hy, hy']
  simp only [evaluate, hp.gradient_eq, hp.jacobian_eq, hp.jacobian_eq', Mat.transposeMulVec_ofReal,
    Vec.sub_apply, Vec.add_apply, Vec.ofReal_apply, mulVec_add, mulVec_sub, Pi.add_apply, Pi.sub_apply]
  exact hreal _ _ _ _ _

/-- The right-hand sides differ by a shift. -/
theorem rhs_eq {y y' : Fin m → ℝ} (hy : s.y = Vec.ofReal y) (hy' : s'.y = Vec.ofReal y')
    (mu : Exact) : s'.rhs mu = (s.rhs mu).shift A (l + y - y') := by
  have hneg : ∀ (a : Exact) (b : ℝ), -(a + (b : Exact)) = -a - (b : Exact) := by
    intro a b
    cases a with
    | undefined => rfl
    | real a =>
      simp only [Exact.add_coe, Exact.neg_coe, Exact.sub_coe, Exact.coe_inj]
      ring
  have hrx : s'.lagrangian.map (-·) =
      (s.lagrangian.map (-·)).sub (Vec.ofReal (Aᵀ *ᵥ (l + y - y'))) := by
    apply Vec.ext
    intro i
    rw [Vec.map_apply, hp.lagrangian_apply hs hy hy', Vec.sub_apply, Vec.map_apply, Vec.ofReal_apply,
      hneg]
  have hconstraint : s'.values.constraint = s.values.constraint := by
    rw [hs.values_eq, hs.values_eq', hs.x_eq]
    exact hp.constraint_eq _
  have hcomplementarity : s'.complementarity mu = s.complementarity mu := by
    unfold State.complementarity
    rw [hs.x_eq, hs.z_eq]
  unfold State.rhs Kkt.Rhs.shift
  rw [hrx, hconstraint, hcomplementarity]

/-- **The directions differ by a shift**, and either there are two or none. -/
theorem newton?_eq {y y' : Fin m → ℝ} (hy : s.y = Vec.ofReal y) (hy' : s'.y = Vec.ofReal y') :
    p'.newton? c s' = (p.newton? c s).map (·.shift (l + y - y')) := by
  have hjacobian : (s.system p c.scheme).jacobian = Mat.ofReal A := by
    unfold State.system
    rw [hs.values_eq]
    exact hp.jacobian_eq _
  have hdirection : p'.newton? c s' = ((Kkt.Solver.new c.method).direction? (s.system p c.scheme)
      ((s.rhs c.mu).shift A (l + y - y'))).1 := by
    unfold newton? direction?
    rw [hp.system_eq hs, hp.rhs_eq hs hy hy']
  rw [hdirection]
  cases hfound : p.newton? c s with
  | some d => exact Kkt.Solver.direction?_shift hjacobian _ hfound
  | none =>
    -- a direction for the shifted right-hand side would be one for this one, shifted back
    rw [Option.map_none, Option.eq_none_iff_forall_ne_some]
    intro d hd
    have hback := Kkt.Solver.direction?_shift hjacobian (-(l + y - y')) hd
    rw [Kkt.Rhs.shift_neg] at hback
    have hsome : p.newton? c s = _ := hback
    rw [hfound] at hsome
    cases hsome

/-- Two updates are made along directions that differ by a shift. -/
theorem exists_updates {u u' : Update Exact n m} (hmove : p.Moves c s u) (hmove' : p'.Moves c s' u') :
    ∃ y y' d, s.y = Vec.ofReal y ∧ s'.y = Vec.ofReal y' ∧ p.newton? c s = some d ∧
      u = p.update c s d ∧ u' = p'.update c s' (d.shift (l + y - y')) := by
  obtain ⟨y, hy⟩ := hs.exists_y
  obtain ⟨y', hy'⟩ := hs.exists_y'
  obtain ⟨d, hd, rfl⟩ := hmove
  obtain ⟨d', hd', rfl⟩ := hmove'
  rw [hp.newton?_eq hs hy hy', hd, Option.map_some] at hd'
  obtain rfl := Option.some.inj hd'
  exact ⟨y, y', d, hy, hy', hd, rfl, rfl⟩

omit hs

/-- **One step of a problem and of a tilted one.**  From states with the same variables and bound
multipliers, full steps lead to such states again, and now the constraint multipliers differ by the
tilt. -/
theorem sideBySide (huniform : c.uniform = false) :
    p.SideBySide c p' c (State.Tilted p p' l) (State.Tilted p p' l) where
  newton?_iff {k s s'} hs := by
    obtain ⟨y, hy⟩ := hs.exists_y
    obtain ⟨y', hy'⟩ := hs.exists_y'
    rw [hp.newton?_eq hs.toBeside hy hy', ne_eq, ne_eq, Option.map_eq_none_iff]
  lengths_eq {k s s' u u'} hs hmove hmove' := by
    obtain ⟨_, _, d, -, -, -, rfl, rfl⟩ := hp.exists_updates hs.toBeside hmove hmove'
    unfold update Iterate.lengths
    rw [hs.x_eq, hs.z_eq]
    rfl
  related {k s s' u u'} hs hmove hmove' := by
    obtain ⟨y, y', d, hy, hy', hd, rfl, rfl⟩ := hp.exists_updates hs.toBeside hmove hmove'
    have hfinite := (isFinite_of_newton? hd).1
    simp only [Kkt.Direction.isFinite, Bool.and_eq_true] at hfinite
    obtain ⟨dy, hdy⟩ := Vec.isFinite_iff.mp hfinite.1.2
    have hynext : (p.update c s d).state.y = Vec.ofReal (y + dy) := by
      simp [update, Iterate.step, Iterate.evaluate, huniform, hy, hdy]
    have hynext' : (p'.update c s' (d.shift (l + y - y'))).state.y = Vec.ofReal (y + dy + l) := by
      simp only [update, Iterate.step, Iterate.evaluate, huniform, Bool.false_eq_true, if_false, hy',
        Kkt.Direction.shift, hdy, Vec.add_ofReal]
      congr 1
      abel
    refine ⟨⟨?_, ?_, ⟨_, hynext⟩, ⟨_, hynext'⟩, rfl, rfl⟩, fun _ => ?_⟩
    · simp only [update, Iterate.step, Iterate.evaluate, huniform, Bool.false_eq_true, if_false,
        Iterate.lengths, hs.x_eq]
      rfl
    · simp only [update, Iterate.step, Iterate.evaluate, huniform, Bool.false_eq_true, if_false,
        Iterate.lengths, hs.z_eq]
      rfl
    · rw [hynext, hynext', Vec.add_ofReal]

/-- After an update the residuals are the same. -/
theorem residuals_eq (hs : s.Beside s' p p') (hy : s'.y = s.y.add (Vec.ofReal l)) (mu : Exact) :
    s'.residuals mu = s.residuals mu := by
  obtain ⟨y, hy₀⟩ := hs.exists_y
  rw [hy₀, Vec.add_ofReal] at hy
  have hlagrangian : s'.lagrangian = s.lagrangian := by
    apply Vec.ext
    intro i
    rw [hp.lagrangian_apply hs hy₀ hy]
    cases hi : s.lagrangian i with
    | undefined => rfl
    | real a => simp [add_comm l y]
  unfold State.residuals State.complementarity
  rw [hlagrangian, hs.values_eq, hs.values_eq', hs.x_eq, hs.z_eq]
  simp only [evaluate, hp.constraint_eq]

theorem isFinite_values (hs : s.Beside s' p p') : s'.values.isFinite = s.values.isFinite := by
  have hgradient : (p'.gradient s.x).isFinite = (p.gradient s.x).isFinite := by
    rw [Bool.eq_iff_iff, Vec.isFinite_iff_forall, Vec.isFinite_iff_forall, hp.gradient_eq]
    simp
  rw [hs.values_eq, hs.values_eq', hs.x_eq]
  simp only [evaluate, Evaluation.isFinite, hp.isFinite_objective, hgradient, hp.constraint_eq,
    hp.jacobian_eq, hp.jacobian_eq']

end Problem.Tilted

/-! ### Whole runs -/

/-- The runs `r` and `r'` go through the same variables and bound multipliers, make the same steps and
end alike, and after the first update the constraint multipliers of `r'` are those of `r` with `l`
added. -/
structure Run.Tilted (r : Run Exact n m) (p : Problem Exact n m) (c : Settings Exact)
    (us : List (Update Exact n m)) (l : Fin m → ℝ) (r' : Run Exact n m) (p' : Problem Exact n m)
    (c' : Settings Exact) (us' : List (Update Exact n m)) : Prop where
  allUpdates : r.AllUpdates p c us
  allUpdates' : r'.AllUpdates p' c' us'
  same : ∀ k, r.PairedAt r' (fun t t' => t'.x = t.x ∧ t'.z = t.z) k
  shifted : ∀ k, 0 < k → r.PairedAt r' (fun t t' => t'.y = t.y.add (Vec.ofReal l)) k
  stepsAlike : ∀ k, r.StepsAlike p c us r' p' c' us' k
  endsAlike : r.EndsAlike r'

theorem State.ext_of_eq {t t' : State Exact n m} (hx : t'.x = t.x) (hy : t'.y = t.y)
    (hz : t'.z = t.z) (hvalues : t'.values = t.values) : t' = t := by
  obtain ⟨⟨x, y, z⟩, values⟩ := t
  obtain ⟨⟨x', y', z'⟩, values'⟩ := t'
  dsimp only at hx hy hz hvalues
  rw [hx, hy, hz, hvalues]

/-- After a step a run without any tilt is in the same state as the other. -/
theorem Run.Tilted.final_eq {r r' : Run Exact n m} {us us' : List (Update Exact n m)}
    (h : r.Tilted p c us 0 r' p c us') (hmoves : 0 < r.moves) : r'.final = r.final := by
  have hfinal : r.visited[r.moves]? = some r.final := r.visited_moves
  have hfinal' : r'.visited[r.moves]? = some r'.final := by
    rw [← h.endsAlike.moves_eq]
    exact r'.visited_moves
  obtain ⟨hx, hz⟩ := h.same _ _ _ hfinal hfinal'
  have hy : r'.final.y = r.final.y.add (Vec.ofReal 0) := h.shifted _ hmoves _ _ hfinal hfinal'
  rw [Vec.add_ofReal_zero] at hy
  -- both states come with their own values, which depend on the variables alone
  obtain ⟨k, hk⟩ := Nat.exists_eq_add_of_lt hmoves
  rw [Nat.zero_add] at hk
  rw [hk] at hfinal hfinal'
  obtain ⟨_, u, -, -, hmove, hu⟩ := h.allUpdates.exists_moves_of_visited hfinal
  obtain ⟨_, u', -, -, hmove', hu'⟩ := h.allUpdates'.exists_moves_of_visited hfinal'
  have hvalues : r'.final.values = r.final.values := by
    rw [← hu, ← hu', hmove.follows.values_eq, hmove'.follows.values_eq, hu, hu', hx]
  exact State.ext_of_eq hx hy hz hvalues

/-- **A tilt changes nothing but the constraint multipliers.**  A solver that makes full steps for the
constraint multipliers answers runs of a problem and of a tilted one that differ by the tilt, from
starts that differ in the constraint multipliers at most. -/
theorem Newton.tilted_of_solve (w w' : Newton Exact) (hp : p.Tilted p' A l) {o : Options Exact}
    (ho : o.check = .ok c) (huniform : o.uniform = false) (s : Start ℝ) (y' : List ℝ) :
    ∃ run v run' v' us us',
      w.solve p o s.exact = .ok (run, v) ∧
      w'.solve p' o ({ s with y := y' } : Start ℝ).exact = .ok (run', v') ∧
      run.Tilted p c us l run' p' c us' := by
  rw [← (Options.accepted_of_check ho).uniform_eq] at huniform
  have hreal : ∀ ys : List ℝ, ∃ y, Vec.sized m (ys.map Exact.real) = Vec.ofReal y := by
    intro ys
    rw [← Vec.isFinite_iff, Vec.isFinite_iff_forall]
    exact Vec.forall_sized (P := fun a => Scalar.isFinite a = true) (by simp) (by simp)
  have hstart : State.Tilted p p' l 0 ((s.exact.iterate c.mu c.mux n m).evaluate p)
      ((({ s with y := y' } : Start ℝ).exact.iterate c.mu c.mux n m).evaluate p') :=
    ⟨⟨rfl, rfl, hreal s.y, hreal y', rfl, rfl⟩, nofun⟩
  obtain ⟨run, v, run', v', us, us', hv, hv', hside⟩ :=
    w.sideBySide_of_solve w' ho ho (hp.sideBySide huniform) hstart
  have hpaired : ∀ k, run.PairedAt run' (State.Tilted p p' l k) k :=
    fun k => hside.pairedAt k fun _ _ hj => hj
  refine ⟨run, v, run', v', us, us', hv, hv', hside.allUpdates, hside.allUpdates', ?_, ?_, ?_, ?_⟩
  · exact fun k t t' ht ht' => ⟨(hpaired k t t' ht ht').x_eq, (hpaired k t t' ht ht').z_eq⟩
  · exact fun k hk t t' ht ht' => (hpaired k t t' ht ht').y_eq hk
  · exact fun k => hside.stepsAlike k (hpaired k)
  · refine hside.endsAlike (fun _ _ _ h => h) ⟨rfl, rfl, fun h => hp.isFinite_values h.toBeside, fun h _ => ?_⟩
    rw [hp.residuals_eq h.toBeside (h.y_eq (Nat.succ_pos _))]

end Optimum

end GibbsNewton
