import GibbsNewton.Proofs.Optimum.Course

/-!
# Runs side by side

Two runs, of two problems and with two settings, whose states correspond to each other without being
equal.  What corresponds may depend on the number of updates made before, and a step may need more of
the two states than that they correspond; so there are two relations, one between the states numbered
`k` and one, stronger, between those that both runs can go on from in the same way.  If one step keeps
the correspondence, so do whole runs, as far as every pair of states is of the second kind; and if
corresponding states are also tested with the same outcome, then both runs end at the same time and
report the same.

## Main definitions

* `Problem.SideBySide` — from pairs of states of one kind both problems go on in the same way, to
  corresponding states.
* `Settings.TestAlike` — corresponding states are tested with the same outcome.
* `Run.PairedAt`, `Run.StepsAlike`, `Run.EndsAlike` — what two runs have in common at the states
  numbered `k`, in the steps from there, and at their end.
* `Run.SideBySide` — all of this for two runs and all their updates.

## Main results

* `Problem.SideBySide.pairedAt`, `Problem.SideBySide.stepsAlike` — **what one step keeps, two runs
  keep.**
* `Problem.SideBySide.endsAlike` — **runs that are tested alike end alike.**
* `Newton.sideBySide_of_solve` — the runs that solvers answer are side by side.
-/

namespace GibbsNewton.Optimum

variable {α : Type} {n m : Nat}

/-! ### What two runs have in common -/

/-- The states numbered `k` of two runs, when there are such, are related. -/
def Run.PairedAt (r r' : Run α n m) (R : State α n m → State α n m → Prop) (k : Nat) : Prop :=
  ∀ t t', r.visited[k]? = some t → r'.visited[k]? = some t' → R t t'

theorem Run.pairedAt_zero {r r' : Run α n m} {R : State α n m → State α n m → Prop} :
    r.PairedAt r' R 0 ↔ R r.start r'.start := by
  constructor
  · exact fun h => h _ _ rfl rfl
  · intro h t t' ht ht'
    obtain rfl : r.start = t := Option.some.inj ht
    obtain rfl : r'.start = t' := Option.some.inj ht'
    exact h

variable [Scalar α] {p p' : Problem α n m} {c c' : Settings α} {r r' : Run α n m}
  {us us' : List (Update α n m)} {S R : Nat → State α n m → State α n m → Prop}

/-- Two runs make as many moves and report the same. -/
structure Run.EndsAlike (r r' : Run α n m) : Prop where
  moves_eq : r'.moves = r.moves
  report_eq : r'.report = r.report

/-- From the states numbered `k` of two runs there are either two directions or none, and updates made
there have the same lengths. -/
structure Run.StepsAlike (r : Run α n m) (p : Problem α n m) (c : Settings α)
    (us : List (Update α n m)) (r' : Run α n m) (p' : Problem α n m) (c' : Settings α)
    (us' : List (Update α n m)) (k : Nat) : Prop where
  newton?_iff : r.PairedAt r' (fun t t' => p.newton? c t ≠ none ↔ p'.newton? c' t' ≠ none) k
  lengths_eq : ∀ u u', us[k]? = some u → us'[k]? = some u' → u'.lengths = u.lengths

/-- **One step of two problems**: from states numbered `k` with `S` there are either two directions or
none, and two updates have the same lengths and lead to states with `R`. -/
structure Problem.SideBySide (p : Problem α n m) (c : Settings α) (p' : Problem α n m)
    (c' : Settings α) (S R : Nat → State α n m → State α n m → Prop) : Prop where
  newton?_iff : ∀ {k s s'}, S k s s' → (p.newton? c s ≠ none ↔ p'.newton? c' s' ≠ none)
  lengths_eq : ∀ {k s s' u u'}, S k s s' → p.Moves c s u → p'.Moves c' s' u' →
    u'.lengths = u.lengths
  related : ∀ {k s s' u u'}, S k s s' → p.Moves c s u → p'.Moves c' s' u' →
    R (k + 1) u.state u'.state

/-- States that are related after an update are finite or not alike, and as far from optimal. -/
structure Settings.TestAlike (c c' : Settings α) (R : Nat → State α n m → State α n m → Prop) :
    Prop where
  maxIterations_eq : c'.maxIterations = c.maxIterations
  tolerance_eq : c'.tolerance = c.tolerance
  isFinite_eq : ∀ {k t t'}, R (k + 1) t t' → t'.values.isFinite = t.values.isFinite
  worst_eq : ∀ {k t t'}, R (k + 1) t t' → t.values.isFinite = true →
    (t'.residuals c'.mu).worst = (t.residuals c.mu).worst

/-! ### As far as both runs go -/

/-- A run that made all its updates leads from one state that it visits to the next by one of them. -/
theorem Run.AllUpdates.exists_moves_of_visited (h : r.AllUpdates p c us) {k : Nat} {t : State α n m}
    (ht : r.visited[k + 1]? = some t) :
    ∃ s u, r.visited[k]? = some s ∧ us[k]? = some u ∧ p.Moves c s u ∧ u.state = t := by
  obtain ⟨hlt, -⟩ := List.getElem?_eq_some_iff.mp ht
  rw [r.length_visited, ← h.length_eq] at hlt
  have hk : k < us.length := by omega
  obtain ⟨s, hs, hmove, hnext⟩ := h.moves k hk
  exact ⟨s, us[k], hs, List.getElem?_eq_getElem hk, hmove, Option.some.inj (hnext.symm.trans ht)⟩

namespace Problem.SideBySide

/-- Less may be asked of a step. -/
theorem mono {S' : Nat → State α n m → State α n m → Prop} (h : p.SideBySide c p' c' S R)
    (hS : ∀ k s s', S' k s s' → S k s s') : p.SideBySide c p' c' S' R where
  newton?_iff hs := h.newton?_iff (hS _ _ _ hs)
  lengths_eq hs := h.lengths_eq (hS _ _ _ hs)
  related hs := h.related (hS _ _ _ hs)

/-- **States numbered alike are related**, as long as the states before are of the kind from which both
runs go on. -/
theorem pairedAt (h : p.SideBySide c p' c' S R) (hus : r.AllUpdates p c us)
    (hus' : r'.AllUpdates p' c' us') (hstart : R 0 r.start r'.start) {k : Nat}
    (hS : ∀ j < k, r.PairedAt r' (R j) j → r.PairedAt r' (S j) j) : r.PairedAt r' (R k) k := by
  induction k with
  | zero => exact Run.pairedAt_zero.mpr hstart
  | succ k ih =>
    intro t t' ht ht'
    obtain ⟨s, u, hs, -, hmove, rfl⟩ := hus.exists_moves_of_visited ht
    obtain ⟨s', u', hs', -, hmove', rfl⟩ := hus'.exists_moves_of_visited ht'
    have hbefore : r.PairedAt r' (R k) k := ih fun j hj => hS j (Nat.lt_succ_of_lt hj)
    exact h.related (hS k (Nat.lt_succ_self k) hbefore s s' hs hs') hmove hmove'

/-- From states of this kind both runs go on in the same way. -/
theorem stepsAlike (h : p.SideBySide c p' c' S R) (hus : r.AllUpdates p c us)
    (hus' : r'.AllUpdates p' c' us') {k : Nat} (hS : r.PairedAt r' (S k) k) :
    r.StepsAlike p c us r' p' c' us' k where
  newton?_iff t t' ht ht' := h.newton?_iff (hS t t' ht ht')
  lengths_eq u u' hu hu' := by
    obtain ⟨hk, rfl⟩ := List.getElem?_eq_some_iff.mp hu
    obtain ⟨hk', rfl⟩ := List.getElem?_eq_some_iff.mp hu'
    obtain ⟨s, hs, hmove, -⟩ := hus.moves k hk
    obtain ⟨s', hs', hmove', -⟩ := hus'.moves k hk'
    exact h.lengths_eq (hS s s' hs hs') hmove hmove'

end Problem.SideBySide

/-! ### Up to the end -/

/-- A run's report is made of its outcome and of what its updates measured. -/
theorem Run.report_eq_of_map {s s' : State α n m} {e e' : Ending α n m}
    (hstatus : e'.status = e.status)
    (hworst : us'.map (fun u => u.residuals.worst) = us.map fun u => u.residuals.worst) :
    (⟨s', us', e'⟩ : Run α n m).report = (⟨s, us, e⟩ : Run α n m).report := by
  have hlength : us'.length = us.length := by simpa using congrArg List.length hworst
  have hlast : us'.getLast?.map (fun u => u.residuals.worst) =
      us.getLast?.map fun u => u.residuals.worst := by
    rw [← List.getLast?_map, ← List.getLast?_map, hworst]
  unfold report
  rw [hstatus, hlength, hlast]
  cases e <;> cases e' <;> first | rfl | cases hstatus

namespace Problem.SideBySide

variable {left : Nat} {s s' : State α n m} {e e' : Ending α n m}

/-- Both courses make as many moves, measure the same after each update, and end with the same
outcome. -/
theorem course_alike (h : p.SideBySide c p' c' R R) (htest : c.TestAlike c' R)
    (hcourse : Course p c left s us e) (hcourse' : Course p' c' left s' us' e') {k : Nat}
    (hs : R k s s') :
    (⟨s', us', e'⟩ : Run α n m).moves = (⟨s, us, e⟩ : Run α n m).moves ∧
      e'.status = e.status ∧
      us'.map (fun u => u.residuals.worst) = us.map fun u => u.residuals.worst := by
  -- An update of the first run comes with one of the second, which is tested with the same outcome.
  have hmoves : ∀ {k s s' u}, R k s s' → p.Moves c s u → ∃ u', p'.Moves c' s' u' ∧
      R (k + 1) u.state u'.state := by
    rintro k s s' u hs ⟨d, hd, rfl⟩
    obtain ⟨d', hd'⟩ := Option.ne_none_iff_exists'.mp
      ((h.newton?_iff hs).mp (by rw [hd]; exact Option.some_ne_none d))
    exact ⟨_, ⟨d', hd', rfl⟩, h.related hs ⟨d, hd, rfl⟩ ⟨d', hd', rfl⟩⟩
  have hworst : ∀ {k s s' u u'}, p.Moves c s u → p'.Moves c' s' u' → R (k + 1) u.state u'.state →
      u.state.values.isFinite = true → u'.residuals.worst = u.residuals.worst := by
    intro k s s' u u' hmove hmove' hR hfinite
    rw [hmove.residuals_eq, hmove'.residuals_eq]
    exact htest.worst_eq hR hfinite
  have hpasses : ∀ {k t t'}, R (k + 1) t t' → t.values.isFinite = true →
      t'.passes c' = t.passes c := by
    intro k t t' hR hfinite
    unfold State.passes
    rw [htest.worst_eq hR hfinite, htest.tolerance_eq]
  induction hcourse generalizing s' us' e' k with
  | iterationLimit s =>
    cases hcourse'
    exact ⟨rfl, rfl, rfl⟩
  | noDirection hnone =>
    have hnone' : p'.newton? c' s' = none :=
      not_ne_iff.mp fun hsome => (h.newton?_iff hs).mpr hsome hnone
    obtain ⟨rfl, rfl⟩ := hcourse'.of_newton?_eq_none hnone'
    exact ⟨rfl, rfl, rfl⟩
  | notFinite move infinite =>
    obtain ⟨u', hmove', hR⟩ := hmoves hs move
    obtain ⟨rfl, rfl⟩ := hcourse'.of_moves_notFinite hmove' ((htest.isFinite_eq hR).trans infinite)
    exact ⟨rfl, rfl, rfl⟩
  | converged move finite pass =>
    obtain ⟨u', hmove', hR⟩ := hmoves hs move
    obtain ⟨rfl, rfl⟩ := hcourse'.of_moves_passes hmove' ((htest.isFinite_eq hR).trans finite)
      ((hpasses hR finite).trans pass)
    exact ⟨rfl, rfl, by simpa using hworst move hmove' hR finite⟩
  | step move finite fail rest ih =>
    obtain ⟨u', hmove', hR⟩ := hmoves hs move
    obtain ⟨vs, rfl, hvs⟩ := hcourse'.of_moves_fails hmove' ((htest.isFinite_eq hR).trans finite)
      ((hpasses hR finite).trans fail)
    obtain ⟨hmovesEq, hstatus, hmap⟩ := ih hvs hR
    refine ⟨?_, hstatus, ?_⟩
    · rw [Run.moves_cons, Run.moves_cons, hmovesEq]
    · rw [List.map_cons, List.map_cons, hmap, hworst move hmove' hR finite]

/-- **Runs that are tested alike end alike.** -/
theorem endsAlike (h : p.SideBySide c p' c' R R) (htest : c.TestAlike c' R)
    (hcourse : Course p c c.maxIterations r.start r.updates r.ending)
    (hcourse' : Course p' c' c'.maxIterations r'.start r'.updates r'.ending)
    (hstart : R 0 r.start r'.start) : r.EndsAlike r' := by
  rw [htest.maxIterations_eq] at hcourse'
  obtain ⟨hmoves, hstatus, hworst⟩ := h.course_alike htest hcourse hcourse' hstart
  exact ⟨hmoves, Run.report_eq_of_map hstatus hworst⟩

end Problem.SideBySide

/-! ### Solvers -/

/-- Two runs with all their updates, side by side: states numbered alike have `R` as long as the states
before have `S`; from states with `S` both go on in the same way; and if `R` is all that a step asks for
and the states are tested alike, the runs end alike. -/
structure Run.SideBySide (r : Run α n m) (p : Problem α n m) (c : Settings α)
    (us : List (Update α n m)) (r' : Run α n m) (p' : Problem α n m) (c' : Settings α)
    (us' : List (Update α n m)) (S R : Nat → State α n m → State α n m → Prop) : Prop where
  allUpdates : r.AllUpdates p c us
  allUpdates' : r'.AllUpdates p' c' us'
  pairedAt : ∀ k, (∀ j < k, r.PairedAt r' (R j) j → r.PairedAt r' (S j) j) → r.PairedAt r' (R k) k
  stepsAlike : ∀ k, r.PairedAt r' (S k) k → r.StepsAlike p c us r' p' c' us' k
  endsAlike : (∀ k t t', R k t t' → S k t t') → c.TestAlike c' R → r.EndsAlike r'

/-- **Solvers answer runs that are side by side**, if one step of the two problems is and the starts
are related. -/
theorem Newton.sideBySide_of_solve (w w' : Newton α) {o o' : Options α} (ho : o.check = .ok c)
    (ho' : o'.check = .ok c') (h : p.SideBySide c p' c' S R) {s s' : Start α}
    (hstart : R 0 ((s.iterate c.mu c.mux n m).evaluate p) ((s'.iterate c'.mu c'.mux n m).evaluate p')) :
    ∃ run v run' v' us us',
      w.solve p o s = .ok (run, v) ∧ w'.solve p' o' s' = .ok (run', v') ∧
      run.SideBySide p c us run' p' c' us' S R := by
  obtain ⟨v, hv⟩ := w.solve_eq_ok p ho s
  obtain ⟨v', hv'⟩ := w'.solve_eq_ok p' ho' s'
  have hcourse := p.course_run c w.kkt s
  have hcourse' := p'.course_run c' w'.kkt s'
  obtain ⟨us, hus⟩ : ∃ us, (p.run c w.kkt s).1.AllUpdates p c us := hcourse.exists_allUpdates
  obtain ⟨us', hus'⟩ : ∃ us', (p'.run c' w'.kkt s').1.AllUpdates p' c' us' :=
    hcourse'.exists_allUpdates
  refine ⟨_, v, _, v', us, us', hv, hv', hus, hus', fun k => ?_, fun k => ?_, fun hRS htest => ?_⟩
  · exact h.pairedAt hus hus' hstart
  · exact h.stepsAlike hus hus'
  · exact (h.mono hRS).endsAlike htest hcourse hcourse' hstart

end GibbsNewton.Optimum
