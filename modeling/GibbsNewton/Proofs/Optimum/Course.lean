import GibbsNewton.Optimum.Newton
import Mathlib.Data.List.Chain

/-!
# The course of a run

What a run is, without the solver that it threads from one iteration to the next: at every state
there is at most one Newton direction, at most one update follows from it, and a run is the chain of
these updates up to the first reason to end.  The results about runs are inductions over the course,
and hold of the driver because the driver takes it.

## Main definitions

* `Problem.newton?`, `Problem.update` — the direction at a state, and the update along a direction.
* `Problem.Moves`, `Problem.Follows` — an update, or a state, comes next after a state.
* `Course p c left s us e` — from `s` on, with `left` iterations left, a run makes the updates `us`
  and ends with `e`.
* `Run.visited`, `Run.AllUpdates` — every state that a run was in, and every update that it made.
* `Options.Accepted` — options that passed the check, and the settings made of them.
* `Options.Bounded` — the numbers among the options are in their bounds.

## Main results

* `Problem.course_run` — **every run takes its course**.
* `Options.accepted_of_check` — what is known of accepted options and their settings.
* `Options.exists_check_iff` — when options are accepted.
* `Newton.solve_eq_ok` — what a solver answers to accepted options is the run with its settings.
* `Course.isChain`, `Course.forall_of_follows` — each state a run visits follows from the one before,
  so that an invariant of one step is an invariant of the run.
* `Course.of_newton?_eq_none`, `Course.of_moves` — how a course goes on from a state.
* `Course.of_converged`, `Course.of_noDirection`, `Course.of_notFinite` — what each ending says about
  the last state.
-/

namespace GibbsNewton.Optimum

variable {α : Type} {n m : Nat}

/-! ### Visited states -/

/-- The state beyond the last completed update, where a run gave up. -/
def Ending.beyond : Ending α n m → List (State α n m)
  | notFinite state => [state]
  | _ => []

namespace Run

/-- The states of a run in order, the one with values that are not finite included. -/
def visited (r : Run α n m) : List (State α n m) := r.states ++ r.ending.beyond

/-- The number of times that a run moved its iterate. -/
def moves (r : Run α n m) : Nat := r.updates.length + r.ending.beyond.length

theorem length_visited (r : Run α n m) : r.visited.length = r.moves + 1 := by
  simp only [visited, states, moves, List.length_append, List.length_cons, List.length_map]
  omega

theorem lastUpdated_cons (s : State α n m) (u : Update α n m) (us : List (Update α n m))
    (e : Ending α n m) :
    (⟨s, u :: us, e⟩ : Run α n m).lastUpdated = (⟨u.state, us, e⟩ : Run α n m).lastUpdated := by
  unfold lastUpdated
  rw [List.getLast?_cons]
  cases us.getLast? <;> rfl

theorem moves_cons (s : State α n m) (u : Update α n m) (us : List (Update α n m))
    (e : Ending α n m) :
    (⟨s, u :: us, e⟩ : Run α n m).moves = (⟨u.state, us, e⟩ : Run α n m).moves + 1 := by
  simp only [moves, List.length_cons]
  omega

theorem length_states (r : Run α n m) : r.states.length = r.updates.length + 1 := by
  rw [states, List.length_cons, List.length_map]

theorem getLast?_states (r : Run α n m) : r.states.getLast? = some r.lastUpdated := by
  unfold states lastUpdated
  rw [List.getLast?_cons, List.getLast?_map]

/-- A run ends in the last state that it visits. -/
theorem getLast?_visited (r : Run α n m) : r.visited.getLast? = some r.final := by
  unfold visited final
  cases r.ending with
  | notFinite t => simp [Ending.beyond]
  | converged => simpa [Ending.beyond] using r.getLast?_states
  | iterationLimit => simpa [Ending.beyond] using r.getLast?_states
  | noDirection => simpa [Ending.beyond] using r.getLast?_states

/-- After all its moves a run is in the state that it leaves behind. -/
theorem visited_moves (r : Run α n m) : r.visited[r.moves]? = some r.final := by
  rw [← r.getLast?_visited, List.getLast?_eq_getElem?, r.length_visited, Nat.add_sub_cancel]

theorem start_mem_visited (r : Run α n m) : r.start ∈ r.visited :=
  List.mem_append_left _ List.mem_cons_self

theorem final_mem_visited (r : Run α n m) : r.final ∈ r.visited :=
  List.mem_of_getLast? r.getLast?_visited

/-- After `k` updates the state numbered `k` is the last one updated. -/
theorem visited_length_updates (r : Run α n m) :
    r.visited[r.updates.length]? = some r.lastUpdated := by
  have hlen := r.length_states
  have hlast := r.getLast?_states
  rw [List.getLast?_eq_getElem?, hlen, Nat.add_sub_cancel] at hlast
  unfold visited
  rw [List.getElem?_append_left (by omega), hlast]

theorem lastUpdated_mem_visited (r : Run α n m) : r.lastUpdated ∈ r.visited :=
  List.mem_of_getElem? r.visited_length_updates

end Run

variable [Scalar α]

/-! ### One iteration -/

/-- Whether the largest residual at a state is below the tolerance. -/
def State.passes (s : State α n m) (c : Settings α) : Bool :=
  Scalar.lt (s.residuals c.mu).worst c.tolerance

namespace Problem

/-- The Newton direction at a state, as a solver finds it that has solved nothing before. -/
def newton? (p : Problem α n m) (c : Settings α) (s : State α n m) :
    Option (Kkt.Direction α n m) :=
  (p.direction? c (.new c.method) s).1

/-- The update made along a direction. -/
def update (p : Problem α n m) (c : Settings α) (s : State α n m) (d : Kkt.Direction α n m) :
    Update α n m :=
  let next := (s.step d (s.lengths d c.tau) c.uniform).evaluate p
  { lengths := s.lengths d c.tau, state := next, residuals := next.residuals c.mu }

/-- The update `u` is the one made at `s`. -/
def Moves (p : Problem α n m) (c : Settings α) (s : State α n m) (u : Update α n m) : Prop :=
  ∃ d, p.newton? c s = some d ∧ u = p.update c s d

/-- The state `t` is the one reached from `s`. -/
def Follows (p : Problem α n m) (c : Settings α) (s t : State α n m) : Prop :=
  ∃ d, p.newton? c s = some d ∧ t = (p.update c s d).state

variable {p : Problem α n m} {c : Settings α} {s : State α n m} {u : Update α n m}

theorem Moves.follows (h : p.Moves c s u) : p.Follows c s u.state := by
  obtain ⟨d, hd, rfl⟩ := h
  exact ⟨d, hd, rfl⟩

theorem Follows.values_eq {t : State α n m} (h : p.Follows c s t) :
    t.values = p.evaluate t.x := by
  obtain ⟨d, _, rfl⟩ := h
  rfl

/-- At most one update is made at a state. -/
theorem Moves.unique {v : Update α n m} (h : p.Moves c s u) (h' : p.Moves c s v) : u = v := by
  obtain ⟨d, hd, rfl⟩ := h
  obtain ⟨d', hd', rfl⟩ := h'
  rw [hd] at hd'
  rw [Option.some.inj hd']

theorem Moves.residuals_eq (h : p.Moves c s u) : u.residuals = u.state.residuals c.mu := by
  obtain ⟨d, _, rfl⟩ := h
  rfl

/-- Earlier systems have no influence on the direction that a solver finds. -/
theorem direction?_fst (p : Problem α n m) (c : Settings α) {kkt : Kkt.Solver α}
    (hk : kkt.method = c.method) (s : State α n m) :
    (p.direction? c kkt s).1 = p.newton? c s := by
  unfold newton? direction?
  rw [Kkt.Solver.direction?_fst, Kkt.Solver.direction?_fst, hk]
  rfl

end Problem

/-! ### The course -/

/-- From the state `s` on, with `left` iterations left, a run makes the updates `us` and ends with
`e`. -/
inductive Course (p : Problem α n m) (c : Settings α) :
    Nat → State α n m → List (Update α n m) → Ending α n m → Prop
  /-- No iteration is left. -/
  | iterationLimit (s : State α n m) : Course p c 0 s [] .iterationLimit
  /-- There is no direction to go. -/
  | noDirection {left : Nat} {s : State α n m} (none : p.newton? c s = none) :
      Course p c (left + 1) s [] .noDirection
  /-- The next state has values that are not finite. -/
  | notFinite {left : Nat} {s : State α n m} {u : Update α n m} (move : p.Moves c s u)
      (infinite : u.state.values.isFinite = false) :
      Course p c (left + 1) s [] (.notFinite u.state)
  /-- The next state passes the test. -/
  | converged {left : Nat} {s : State α n m} {u : Update α n m} (move : p.Moves c s u)
      (finite : u.state.values.isFinite = true) (pass : u.state.passes c = true) :
      Course p c (left + 1) s [u] .converged
  /-- The next state does not pass, and the run goes on from there. -/
  | step {left : Nat} {s : State α n m} {u : Update α n m} {us : List (Update α n m)}
      {e : Ending α n m} (move : p.Moves c s u) (finite : u.state.values.isFinite = true)
      (fail : u.state.passes c = false) (rest : Course p c left u.state us e) :
      Course p c (left + 1) s (u :: us) e

namespace Problem

/-- An iteration of the driver, in terms of the update that it makes. -/
theorem pursue_succ (p : Problem α n m) (c : Settings α) (left : Nat) (kkt : Kkt.Solver α)
    (s : State α n m) :
    p.pursue c (left + 1) kkt s =
      match p.direction? c kkt s with
      | (none, kkt) => ([], .noDirection, kkt)
      | (some d, kkt) =>
        let u := p.update c s d
        if u.state.values.isFinite then
          if u.state.passes c then ([u], .converged, kkt)
          else (u :: (p.pursue c left kkt u.state).1, (p.pursue c left kkt u.state).2)
        else ([], .notFinite u.state, kkt) := rfl

/-- The driver takes the course from every state, whatever its solver has done before. -/
theorem course_pursue (p : Problem α n m) (c : Settings α) (left : Nat) {kkt : Kkt.Solver α}
    (hk : kkt.method = c.method) (s : State α n m) :
    Course p c left s (p.pursue c left kkt s).1 (p.pursue c left kkt s).2.1 := by
  induction left generalizing kkt s with
  | zero => exact .iterationLimit s
  | succ left ih =>
    have hfst := p.direction?_fst c hk s
    have hsnd : (p.direction? c kkt s).2.method = c.method :=
      (Kkt.Solver.direction?_snd_method kkt _ _).trans hk
    rw [pursue_succ]
    -- The solver that comes back is not the one handed in, but it has the same method, and this is
    -- all that the next iteration asks of it.
    cases hdir : p.direction? c kkt s with
    | mk d? kkt' =>
      rw [hdir] at hfst hsnd
      cases d? with
      | none => exact .noDirection hfst.symm
      | some d =>
        have move : p.Moves c s (p.update c s d) := ⟨d, hfst.symm, rfl⟩
        dsimp only
        split
        next finite =>
          split
          next pass => exact .converged move finite pass
          next fail => exact .step move finite (Bool.eq_false_iff.mpr fail) (ih hsnd _)
        next infinite => exact .notFinite move (Bool.eq_false_iff.mpr infinite)

/-- **A run takes its course**, from the start that was made of the caller's. -/
theorem course_run (p : Problem α n m) (c : Settings α) (kkt : Kkt.Solver α) (s : Start α) :
    Course p c c.maxIterations ((s.iterate c.mu c.mux n m).evaluate p)
      (p.run c kkt s).1.updates (p.run c kkt s).1.ending :=
  p.course_pursue c c.maxIterations rfl _

end Problem

/-! ### What a step keeps, a run keeps -/

/-- All updates that a run made, the one after which it may have given up included. -/
structure Run.AllUpdates (r : Run α n m) (p : Problem α n m) (c : Settings α)
    (us : List (Update α n m)) : Prop where
  /-- The completed ones come first. -/
  completed : r.updates <+: us
  /-- There is one for every move. -/
  length_eq : us.length = r.moves
  /-- The update numbered `k` leads from the state numbered `k` to the next. -/
  moves : ∀ (k : Nat) (hk : k < us.length), ∃ s, r.visited[k]? = some s ∧ p.Moves c s us[k] ∧
    r.visited[k + 1]? = some us[k].state

namespace Course

variable {p : Problem α n m} {c : Settings α} {left : Nat} {s t : State α n m}
  {us : List (Update α n m)} {e : Ending α n m}

/-- **Every state that a run visits follows from the one before.** -/
theorem isChain (h : Course p c left s us e) :
    (⟨s, us, e⟩ : Run α n m).visited.IsChain (p.Follows c) := by
  induction h with
  | iterationLimit s => exact .singleton s
  | noDirection => exact .singleton _
  | notFinite move => exact .cons_cons move.follows (.singleton _)
  | converged move => exact .cons_cons move.follows (.singleton _)
  | step move finite fail rest ih => exact .cons_cons move.follows ih

/-- An invariant of one step holds of every state that a run visits. -/
theorem forall_of_follows {Inv : State α n m → Prop} (h : Course p c left s us e) (hs : Inv s)
    (hstep : ∀ ⦃s t⦄, p.Follows c s t → Inv s → Inv t) :
    ∀ t ∈ (⟨s, us, e⟩ : Run α n m).visited, Inv t := by
  refine h.isChain.induction Inv _ hstep fun _ => ?_
  exact hs

/-- Each completed update was made at some state, and its values are finite. -/
theorem exists_moves (h : Course p c left s us e) :
    ∀ u ∈ us, (∃ s, p.Moves c s u) ∧ u.state.values.isFinite = true := by
  induction h with
  | iterationLimit s => simp
  | noDirection => simp
  | notFinite => simp
  | converged move finite => simpa using ⟨⟨_, move⟩, finite⟩
  | step move finite fail rest ih =>
    intro u hu
    rcases List.mem_cons.mp hu with rfl | hu
    · exact ⟨⟨_, move⟩, finite⟩
    · exact ih u hu

/-- A run made all its updates, one for each move, at the states that it visits. -/
theorem exists_allUpdates (h : Course p c left s us e) :
    ∃ vs, (⟨s, us, e⟩ : Run α n m).AllUpdates p c vs := by
  induction h with
  | iterationLimit s => exact ⟨[], List.prefix_rfl, rfl, nofun⟩
  | noDirection => exact ⟨[], List.prefix_rfl, rfl, nofun⟩
  | @notFinite left s u move =>
    refine ⟨[u], List.nil_prefix, rfl, fun k hk => ?_⟩
    obtain rfl : k = 0 := by simpa using hk
    exact ⟨s, rfl, move, rfl⟩
  | @converged left s u move =>
    refine ⟨[u], List.prefix_rfl, rfl, fun k hk => ?_⟩
    obtain rfl : k = 0 := by simpa using hk
    exact ⟨s, rfl, move, rfl⟩
  | @step left s u us e move finite fail rest ih =>
    obtain ⟨vs, hvs⟩ := ih
    refine ⟨u :: vs, List.cons_prefix_cons.mpr ⟨rfl, hvs.completed⟩, ?_, fun k hk => ?_⟩
    · rw [List.length_cons, hvs.length_eq, Run.moves_cons]
    · -- the run visits its start, and then what the rest of it visits
      cases k with
      | zero => exact ⟨s, rfl, move, rfl⟩
      | succ k => exact hvs.moves k (Nat.lt_of_succ_lt_succ hk)

/-! ### How a run ends -/

/-- A run makes at most as many moves as it has iterations. -/
theorem moves_le (h : Course p c left s us e) : (⟨s, us, e⟩ : Run α n m).moves ≤ left := by
  induction h with
  | iterationLimit s => exact Nat.zero_le _
  | noDirection => exact Nat.zero_le _
  | notFinite => exact Nat.succ_le_succ (Nat.zero_le _)
  | converged => exact Nat.succ_le_succ (Nat.zero_le _)
  | step move finite fail rest ih =>
    rw [Run.moves_cons]
    exact Nat.succ_le_succ ih

/-- A run that uses up its iterations makes an update in each. -/
theorem length_of_iterationLimit (h : Course p c left s us .iterationLimit) :
    us.length = left := by
  -- The ending is an index of the course, so it is made a variable before the induction; endings
  -- other than this one then drop out.
  generalize he : Ending.iterationLimit = e at h
  induction h with
  | iterationLimit s => rfl
  | step move finite fail rest ih => rw [List.length_cons, ih he]
  | _ => cases he

/-- The last update of a run that converged passes the test, and it is the first that does. -/
theorem of_converged (h : Course p c left s us .converged) :
    ∃ vs u, us = vs ++ [u] ∧ u.state.passes c = true ∧ ∀ v ∈ vs, v.state.passes c = false := by
  generalize he : Ending.converged = e at h
  induction h with
  | @converged left s u move finite pass => exact ⟨[], u, rfl, pass, by simp⟩
  | @step left s v us e move finite fail rest ih =>
    obtain ⟨vs, u, rfl, hu, hvs⟩ := ih he
    exact ⟨v :: vs, u, rfl, hu, List.forall_mem_cons.mpr ⟨fail, hvs⟩⟩
  | _ => cases he

/-- No update of a run that did not converge passes the test. -/
theorem passes_eq_false (h : Course p c left s us e) (he : e ≠ .converged) :
    ∀ u ∈ us, u.state.passes c = false := by
  induction h with
  | converged => exact absurd rfl he
  | step move finite fail rest ih => exact List.forall_mem_cons.mpr ⟨fail, ih he⟩
  | _ => simp

/-- A run that found no direction was not out of iterations, and there is none at its last state. -/
theorem of_noDirection (h : Course p c left s us .noDirection) :
    us.length < left ∧ p.newton? c (⟨s, us, .noDirection⟩ : Run α n m).lastUpdated = none := by
  generalize he : Ending.noDirection = e at h
  induction h with
  | noDirection none => exact ⟨Nat.succ_pos _, none⟩
  | step move finite fail rest ih =>
    rw [Run.lastUpdated_cons, List.length_cons]
    exact ⟨Nat.succ_lt_succ (ih he).1, (ih he).2⟩
  | _ => cases he

/-- A run that gave up beyond its last state went there from it, and some value is not finite. -/
theorem of_notFinite (h : Course p c left s us (.notFinite t)) :
    us.length < left ∧ p.Follows c (⟨s, us, .notFinite t⟩ : Run α n m).lastUpdated t ∧
      t.values.isFinite = false := by
  generalize he : Ending.notFinite t = e at h
  induction h with
  | notFinite move infinite =>
    cases he
    exact ⟨Nat.succ_pos _, move.follows, infinite⟩
  | step move finite fail rest ih =>
    rw [Run.lastUpdated_cons, List.length_cons]
    exact ⟨Nat.succ_lt_succ (ih he).1, (ih he).2⟩
  | _ => cases he

/-! ### Following a course -/

/-- Where there is no direction a course ends. -/
theorem of_newton?_eq_none (h : Course p c (left + 1) s us e) (hs : p.newton? c s = none) :
    us = [] ∧ e = .noDirection := by
  have hnot : ∀ {u}, ¬p.Moves c s u := by
    rintro u ⟨d, hd, -⟩
    rw [hs] at hd
    cases hd
  cases h with
  | noDirection none => exact ⟨rfl, rfl⟩
  | notFinite move => exact absurd move hnot
  | converged move => exact absurd move hnot
  | step move => exact absurd move hnot

/-- Where there is an update, its values and residuals decide how a course goes on. -/
theorem of_moves (h : Course p c (left + 1) s us e) {u : Update α n m} (hu : p.Moves c s u) :
    u.state.values.isFinite = false ∧ us = [] ∧ e = .notFinite u.state ∨
      u.state.values.isFinite = true ∧ u.state.passes c = true ∧ us = [u] ∧ e = .converged ∨
      u.state.values.isFinite = true ∧ u.state.passes c = false ∧
        ∃ vs, us = u :: vs ∧ Course p c left u.state vs e := by
  cases h with
  | noDirection none =>
    obtain ⟨d, hd, -⟩ := hu
    rw [none] at hd
    cases hd
  | notFinite move infinite =>
    obtain rfl := move.unique hu
    exact .inl ⟨infinite, rfl, rfl⟩
  | converged move finite pass =>
    obtain rfl := move.unique hu
    exact .inr (.inl ⟨finite, pass, rfl, rfl⟩)
  | step move finite fail rest =>
    obtain rfl := move.unique hu
    exact .inr (.inr ⟨finite, fail, _, rfl, rest⟩)

theorem of_moves_notFinite (h : Course p c (left + 1) s us e) {u : Update α n m}
    (hu : p.Moves c s u) (infinite : u.state.values.isFinite = false) :
    us = [] ∧ e = .notFinite u.state := by
  rcases h.of_moves hu with ⟨-, hus, he⟩ | ⟨finite, -⟩ | ⟨finite, -⟩
  · exact ⟨hus, he⟩
  · rw [infinite] at finite
    cases finite
  · rw [infinite] at finite
    cases finite

theorem of_moves_passes (h : Course p c (left + 1) s us e) {u : Update α n m} (hu : p.Moves c s u)
    (finite : u.state.values.isFinite = true) (pass : u.state.passes c = true) :
    us = [u] ∧ e = .converged := by
  rcases h.of_moves hu with ⟨infinite, -⟩ | ⟨-, -, hus, he⟩ | ⟨-, fail, -⟩
  · rw [finite] at infinite
    cases infinite
  · exact ⟨hus, he⟩
  · rw [pass] at fail
    cases fail

theorem of_moves_fails (h : Course p c (left + 1) s us e) {u : Update α n m} (hu : p.Moves c s u)
    (finite : u.state.values.isFinite = true) (fail : u.state.passes c = false) :
    ∃ vs, us = u :: vs ∧ Course p c left u.state vs e := by
  rcases h.of_moves hu with ⟨infinite, -⟩ | ⟨-, pass, -⟩ | ⟨-, -, hrest⟩
  · rw [finite] at infinite
    cases infinite
  · rw [fail] at pass
    cases pass
  · exact hrest

end Course

/-! ### Solvers -/

/-- What is known of options that passed the check, and of the settings that come out. -/
structure Options.Accepted (o : Options α) (c : Settings α) : Prop where
  one_le : 1 ≤ o.maxIterations
  mu_pos : Scalar.lt 0 c.mu = true
  tau_pos : Scalar.lt 0 c.tau = true
  tau_lt_one : Scalar.lt c.tau 1 = true
  scheme_eq : HessianScheme.ofName? o.hessian = some c.scheme
  method_eq : Kkt.Method.ofName? o.kkt = some c.method
  maxIterations_eq : (c.maxIterations : Int) = o.maxIterations
  tolerance_eq : c.tolerance = o.tolerance
  mu_eq : c.mu = o.mu
  mux_eq : c.mux = o.mux
  tau_eq : c.tau = o.tau
  uniform_eq : c.uniform = o.uniform
  output_eq : c.output = o.output

/-- The settings that a check gives are the options, with the choices looked up. -/
theorem Options.accepted_of_check {o : Options α} {c : Settings α} (h : o.check = .ok c) :
    o.Accepted c := by
  unfold check at h
  split at h
  · cases h
  next scheme hscheme =>
    split at h
    · cases h
    next method hmethod =>
      split at h
      · cases h
      next hiter =>
        split at h
        · cases h
        next hmu =>
          split at h
          · cases h
          next htau =>
            simp only [Bool.not_eq_true, Bool.not_eq_false', Bool.and_eq_true] at hmu htau
            obtain rfl := Except.ok.inj h
            exact {
              one_le := by omega
              mu_pos := hmu
              tau_pos := htau.1
              tau_lt_one := htau.2
              scheme_eq := hscheme
              method_eq := hmethod
              maxIterations_eq := by dsimp only; omega
              tolerance_eq := rfl
              mu_eq := rfl
              mux_eq := rfl
              tau_eq := rfl
              uniform_eq := rfl
              output_eq := rfl }

/-- Options that a check would accept are accepted. -/
theorem Options.Accepted.check_eq {o : Options α} {c : Settings α} (h : o.Accepted c) :
    o.check = .ok c := by
  have hone := h.one_le
  have hmax := h.maxIterations_eq
  have hmu : Scalar.lt 0 o.mu = true := h.mu_eq ▸ h.mu_pos
  have htau : (Scalar.lt 0 o.tau && Scalar.lt o.tau 1) = true := by
    rw [← h.tau_eq, h.tau_pos, h.tau_lt_one]
    rfl
  unfold check
  rw [h.scheme_eq, h.method_eq]
  dsimp only
  rw [if_neg (by omega), hmu, if_neg (by simp), htau, if_neg (by simp)]
  obtain ⟨tolerance, maxIterations, scheme, method, mu, mux, tau, uniform, output⟩ := c
  obtain rfl : tolerance = o.tolerance := h.tolerance_eq
  obtain rfl : mu = o.mu := h.mu_eq
  obtain rfl : mux = o.mux := h.mux_eq
  obtain rfl : tau = o.tau := h.tau_eq
  obtain rfl : uniform = o.uniform := h.uniform_eq
  obtain rfl : output = o.output := h.output_eq
  obtain rfl : maxIterations = o.maxIterations.toNat := by simp only at hmax; omega
  rfl

namespace Options

/-- The numbers among the options are in their bounds. -/
def Bounded (o : Options α) : Prop :=
  1 ≤ o.maxIterations ∧ Scalar.lt 0 o.mu = true ∧ Scalar.lt 0 o.tau = true ∧
    Scalar.lt o.tau 1 = true

/-- Options are accepted when their names stand for something and their numbers are in bounds. -/
theorem exists_check_iff {o : Options α} :
    (∃ c, o.check = .ok c) ↔
      HessianScheme.ofName? o.hessian ≠ none ∧ Kkt.Method.ofName? o.kkt ≠ none ∧ o.Bounded := by
  constructor
  · rintro ⟨c, hc⟩
    have hacc := accepted_of_check hc
    refine ⟨?_, ?_, hacc.one_le, hacc.mu_eq ▸ hacc.mu_pos, hacc.tau_eq ▸ hacc.tau_pos,
      hacc.tau_eq ▸ hacc.tau_lt_one⟩
    · rw [hacc.scheme_eq]
      exact Option.some_ne_none _
    · rw [hacc.method_eq]
      exact Option.some_ne_none _
  · rintro ⟨hscheme, hmethod, hone, hmu, htau, htaulr⟩
    obtain ⟨scheme, hscheme⟩ := Option.ne_none_iff_exists'.mp hscheme
    obtain ⟨method, hmethod⟩ := Option.ne_none_iff_exists'.mp hmethod
    refine ⟨{ o with scheme, method, maxIterations := o.maxIterations.toNat }, Accepted.check_eq ?_⟩
    exact {
      one_le := hone
      mu_pos := hmu
      tau_pos := htau
      tau_lt_one := htaulr
      scheme_eq := hscheme
      method_eq := hmethod
      maxIterations_eq := Int.toNat_of_nonneg (by omega)
      tolerance_eq := rfl
      mu_eq := rfl
      mux_eq := rfl
      tau_eq := rfl
      uniform_eq := rfl
      output_eq := rfl }

/-- The name of the method is looked up before any number is checked. -/
theorem check_eq_unknown {o : Options α} (hscheme : HessianScheme.ofName? o.hessian ≠ none)
    (hmethod : Kkt.Method.ofName? o.kkt = none) :
    o.check = .error (.unknown (Kkt.Method.unknown o.kkt)) := by
  obtain ⟨scheme, hscheme⟩ := Option.ne_none_iff_exists'.mp hscheme
  rw [check, hscheme, hmethod]

end Options

/-- To accepted options a solver answers the run with their settings. -/
theorem Newton.solve_eq_ok (w : Newton α) (p : Problem α n m) {o : Options α} {c : Settings α}
    (h : o.check = .ok c) (s : Start α) :
    ∃ w', w.solve p o s = .ok ((p.run c w.kkt s).1, w') := by
  unfold solve
  rw [h]
  exact ⟨_, rfl⟩

end GibbsNewton.Optimum
