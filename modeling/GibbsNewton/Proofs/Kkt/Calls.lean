import GibbsNewton.Proofs.Kkt.Factorization
import GibbsNewton.Kkt.Solver

/-!
# Calls to a solver of Newton systems

A solver has three things that a call can change: the method, the factorisation that it holds, and the
flag.  Factoring a system writes all but the method, a solution can only clear the flag, and choosing a
method drops the factorisation but not the flag.  So a flag that is set says that the last system was
factored with success, and the solver still solves with that factorisation as long as no method was chosen
since.  After a choice the flag says so no longer: nothing is held, and no right-hand side is solved for.

## Main definitions

* `Kkt.Solver.Call`, `Kkt.Solver.next`, `Kkt.Solver.after` — a call, what it leaves, and what calls in
  order leave.
* `Kkt.Solver.Usable` — the solver solves with the factorisation of a system, made by its own method.
* `Kkt.Solver.FlagLaw` — what the flag says after some calls.

## Main results

* `Kkt.Solver.held_foldl_of_not_chooses`, `Kkt.Solver.held_foldl_of_chooses` — what is held after calls
  that factor nothing.
* `Kkt.Solver.flagLaw_after` — **the flag after any calls.**
* `Kkt.Solver.succeeded_not_usable` — a flag that is set, and no factorisation.
-/

namespace GibbsNewton.Kkt

namespace Solver

variable {α : Type}

/-! ### Calls -/

/-- A call to a solver. -/
inductive Call (α : Type)
  /-- A method is chosen by its name. -/
  | choose (name : String)
  /-- A system is factored. -/
  | decompose {n m : ℕ} (system : System α n m)
  /-- A right-hand side is solved for. -/
  | solve {n m : ℕ} (r : Rhs α n m)

/-- The calls that factor a system. -/
def Call.Factors : Call α → Prop
  | decompose _ => True
  | _ => False

/-- The calls that choose a method, by a name that is one. -/
def Call.Chooses : Call α → Prop
  | choose name => ∃ method : Method, method.name = name
  | _ => False

variable [Scalar α] {n m : ℕ}

/-- The solver after a call; one that fails leaves it as it was. -/
def next (s : Solver α) : Call α → Solver α
  | .choose name => (s.choose name).toOption.getD s
  | .decompose system => s.decompose system
  | .solve r => ((s.solve r).toOption.map Prod.snd).getD s

/-- A solver made for a method, after calls in order. -/
def after (method : Method) (calls : List (Call α)) : Solver α := calls.foldl next (new method)

theorem after_concat (method : Method) (calls : List (Call α)) (c : Call α) :
    after method (calls ++ [c]) = (after method calls).next c := by
  rw [after, List.foldl_append]
  rfl

/-! ### One call -/

/-- A name that is no method is refused, and the solver is as it was. -/
theorem choose_of_unknown (s : Solver α) {name : String} (h : ¬∃ method : Method, method.name = name) :
    s.choose name = .error (Method.unknown name) ∧ s.next (.choose name) = s := by
  have hnone : Method.ofName? name = none := by
    rw [Option.eq_none_iff_forall_ne_some]
    intro method hmethod
    exact h ⟨method, Method.ofName?_eq_some_iff.mp hmethod⟩
  have hchoose : s.choose name = .error (Method.unknown name) := by rw [choose, hnone]
  refine ⟨hchoose, ?_⟩
  rw [next, hchoose]
  rfl

/-- A name that is a method drops the factorisation and keeps the flag. -/
theorem next_choose_of_known (s : Solver α) {name : String}
    (h : ∃ method : Method, method.name = name) :
    ∃ method, s.next (.choose name) = s.setMethod method := by
  obtain ⟨method, hmethod⟩ := h
  refine ⟨method, ?_⟩
  rw [next, choose, Method.ofName?_eq_some_iff.mpr hmethod]
  rfl

/-- A right-hand side leaves everything but the flag, and that it can only clear. -/
theorem next_solve (s : Solver α) (r : Rhs α n m) :
    ∃ flag, s.next (.solve r) = { s with succeeded := s.succeeded && flag } := by
  have hkept : ∃ flag, s = { s with succeeded := s.succeeded && flag } :=
    ⟨true, by rw [Bool.and_true]⟩
  cases hsolve : s.solve r with
  | error e =>
    rw [next, hsolve]
    exact hkept
  | ok answer =>
    rw [next, hsolve]
    unfold solve at hsolve
    split at hsolve
    next => cases hsolve
    next =>
      split at hsolve
      next =>
        simp only at hsolve
        split at hsolve
        next =>
          cases hsolve
          exact hkept
        next F _ =>
          cases hsolve
          exact ⟨_, rfl⟩
      next => cases hsolve

/-- A call that factors nothing does not set the flag. -/
theorem succeeded_of_next {s : Solver α} {c : Call α} (hc : ¬c.Factors)
    (h : (s.next c).succeeded = true) : s.succeeded = true := by
  cases c with
  | choose name =>
    by_cases hname : ∃ method : Method, method.name = name
    · obtain ⟨method, hnext⟩ := s.next_choose_of_known hname
      rw [hnext] at h
      exact h
    · rw [(s.choose_of_unknown hname).2] at h
      exact h
  | decompose system => exact absurd trivial hc
  | solve r =>
    obtain ⟨flag, hnext⟩ := s.next_solve r
    rw [hnext] at h
    exact (Bool.and_eq_true _ _ ▸ h).1

/-- A call that neither factors nor chooses keeps the method and what is held. -/
theorem next_of_not_chooses (s : Solver α) {c : Call α} (hc : ¬c.Factors) (hchoose : ¬c.Chooses) :
    (s.next c).method = s.method ∧ (s.next c).held = s.held := by
  cases c with
  | choose name =>
    rw [(s.choose_of_unknown hchoose).2]
    exact ⟨rfl, rfl⟩
  | decompose system => exact absurd trivial hc
  | solve r =>
    obtain ⟨flag, hnext⟩ := s.next_solve r
    rw [hnext]
    exact ⟨rfl, rfl⟩

theorem held_next_of_chooses (s : Solver α) {c : Call α} (hchoose : c.Chooses) :
    (s.next c).held = none := by
  cases c with
  | choose name =>
    obtain ⟨method, hnext⟩ := s.next_choose_of_known hchoose
    rw [hnext]
    rfl
  | decompose system => exact hchoose.elim
  | solve r => exact hchoose.elim

/-! ### Calls that factor nothing -/

theorem succeeded_of_foldl {calls : List (Call α)} (hcalls : ∀ c ∈ calls, ¬c.Factors) :
    ∀ {s : Solver α}, (calls.foldl next s).succeeded = true → s.succeeded = true := by
  induction calls with
  | nil => exact fun h => h
  | cons c calls ih =>
    intro s h
    obtain ⟨hc, hcalls⟩ := List.forall_mem_cons.mp hcalls
    exact succeeded_of_next hc (ih hcalls h)

/-- Without a choice, the factorisation stays. -/
theorem held_foldl_of_not_chooses {calls : List (Call α)} (hcalls : ∀ c ∈ calls, ¬c.Factors)
    (hchoose : ∀ c ∈ calls, ¬c.Chooses) (s : Solver α) :
    (calls.foldl next s).method = s.method ∧ (calls.foldl next s).held = s.held := by
  induction calls generalizing s with
  | nil => exact ⟨rfl, rfl⟩
  | cons c calls ih =>
    obtain ⟨hc, hcalls⟩ := List.forall_mem_cons.mp hcalls
    obtain ⟨hcchoose, hchoose⟩ := List.forall_mem_cons.mp hchoose
    obtain ⟨hmethod, hheld⟩ := ih hcalls hchoose (s.next c)
    obtain ⟨hmethod', hheld'⟩ := s.next_of_not_chooses hc hcchoose
    exact ⟨hmethod.trans hmethod', hheld.trans hheld'⟩

/-- Nothing held stays nothing held. -/
theorem held_foldl_of_none {calls : List (Call α)} (hcalls : ∀ c ∈ calls, ¬c.Factors) {s : Solver α}
    (h : s.held = none) : (calls.foldl next s).held = none := by
  induction calls generalizing s with
  | nil => exact h
  | cons c calls ih =>
    obtain ⟨hc, hcalls⟩ := List.forall_mem_cons.mp hcalls
    refine ih hcalls ?_
    -- a choice drops what is held, and every other call keeps it
    by_cases hcchoose : c.Chooses
    · exact s.held_next_of_chooses hcchoose
    · rw [(s.next_of_not_chooses hc hcchoose).2]
      exact h

/-- After a choice, whatever else was called, nothing is held. -/
theorem held_foldl_of_chooses {calls : List (Call α)} (hcalls : ∀ c ∈ calls, ¬c.Factors)
    (hchoose : ∃ c ∈ calls, c.Chooses) (s : Solver α) : (calls.foldl next s).held = none := by
  obtain ⟨c, hmem, hcchoose⟩ := hchoose
  obtain ⟨before, later, rfl⟩ := List.append_of_mem hmem
  have hlater : ∀ c ∈ later, ¬c.Factors := fun c hc => hcalls c (by simp [hc])
  rw [List.foldl_append, List.foldl_cons]
  exact held_foldl_of_none hlater (held_next_of_chooses _ hcchoose)

theorem solve_of_held_none {s : Solver α} (h : s.held = none) (r : Rhs α n m) :
    s.solve r = .error .nothingFactored := by
  rw [solve, h]

/-! ### The flag -/

/-- The solver holds the factorisation of a system, made by the method that it has, and solves with it for
every right-hand side of the size. -/
def Usable (s : Solver α) (system : System α n m) : Prop :=
  ∃ F, system.factor s.method = some F ∧ s.held = some ⟨n, m, system, some F⟩ ∧
    ∀ r : Rhs α n m, ∃ s', s.solve r = .ok (some (F.solve system r), s')

theorem usable_of_held {s : Solver α} {system : System α n m} {F : Factorization α n m}
    (hF : system.factor s.method = some F) (hheld : s.held = some ⟨n, m, system, some F⟩) :
    s.Usable system := by
  refine ⟨F, hF, hheld, fun r => ?_⟩
  exact ⟨{ s with succeeded := s.succeeded && (F.solve system r).isFinite }, by simp [solve, hheld]⟩

omit [Scalar α] in
/-- Calls have a last one that factors a system, or none that does. -/
theorem exists_last_factoring (calls : List (Call α)) :
    (∀ c ∈ calls, ¬c.Factors) ∨
      ∃ (n m : ℕ) (system : System α n m) (before later : List (Call α)),
        calls = before ++ .decompose system :: later ∧ ∀ c ∈ later, ¬c.Factors := by
  induction calls with
  | nil => exact .inl nofun
  | cons c calls ih =>
    obtain hnone | ⟨n, m, system, before, later, rfl, hlater⟩ := ih
    · cases c with
      | decompose system => exact .inr ⟨_, _, system, [], calls, rfl, hnone⟩
      | choose name => exact .inl (List.forall_mem_cons.mpr ⟨id, hnone⟩)
      | solve r => exact .inl (List.forall_mem_cons.mpr ⟨id, hnone⟩)
    · exact .inr ⟨n, m, system, c :: before, later, rfl, hlater⟩

/-- What the flag of a solver says after some calls. -/
structure FlagLaw (method : Method) (calls : List (Call α)) : Prop where
  /-- A flag that is set says that the last factoring succeeded.  If no method was chosen since, its
  factorisation is there to be solved with; otherwise there is none. -/
  factored : (after method calls).succeeded = true →
    ∃ (n m : ℕ) (system : System α n m) (before later : List (Call α)),
      calls = before ++ .decompose system :: later ∧ (∀ c ∈ later, ¬c.Factors) ∧
      ((after method before).decompose system).succeeded = true ∧
      ((∀ c ∈ later, ¬c.Chooses) → (after method calls).Usable system) ∧
      ((∃ c ∈ later, c.Chooses) → (after method calls).held = none ∧
        ∀ (k l : ℕ) (r : Rhs α k l), (after method calls).solve r = .error .nothingFactored)
  /-- Factoring sets or clears the flag, as it succeeds or fails. -/
  written : ∀ (n m : ℕ) (system : System α n m),
    (after method (calls ++ [.decompose system])).succeeded =
      (system.factor (after method calls).method).isSome
  /-- No other call sets it. -/
  only : ∀ c : Call α, ¬c.Factors → (after method (calls ++ [c])).succeeded = true →
    (after method calls).succeeded = true
  /-- A name that is no method changes nothing. -/
  refused : ∀ name, (¬∃ method : Method, method.name = name) →
    (after method calls).choose name = .error (Method.unknown name) ∧
      after method (calls ++ [.choose name]) = after method calls

/-- **The flag after any calls**, whatever was chosen, factored and solved for, in whatever order and of
whatever sizes. -/
theorem flagLaw_after (method : Method) (calls : List (Call α)) : FlagLaw method calls where
  factored h := by
    obtain hnone | ⟨n, m, system, before, later, rfl, hlater⟩ := exists_last_factoring calls
    · exact absurd (succeeded_of_foldl hnone h) (by simp [new])
    -- whatever was called before the last factoring, the solver goes on from there
    have hafter : after method (before ++ .decompose system :: later) =
        later.foldl next ((after method before).decompose system) := by
      rw [after, List.foldl_append, List.foldl_cons]
      rfl
    rw [hafter] at h ⊢
    have hsucceeded := succeeded_of_foldl hlater h
    refine ⟨n, m, system, before, later, rfl, hlater, hsucceeded, fun hchoose => ?_, fun hchoose => ?_⟩
    · obtain ⟨F, hF⟩ := Option.isSome_iff_exists.mp hsucceeded
      obtain ⟨hmethod, hheld⟩ := held_foldl_of_not_chooses hlater hchoose
        ((after method before).decompose system)
      refine usable_of_held (F := F) ?_ ?_
      · rw [hmethod]
        exact hF
      · rw [hheld, decompose, hF]
    · have hheld := held_foldl_of_chooses hlater hchoose ((after method before).decompose system)
      exact ⟨hheld, fun _ _ => solve_of_held_none hheld⟩
  written n m system := by
    rw [after_concat]
    rfl
  only c hc h := by
    rw [after_concat] at h
    exact succeeded_of_next hc h
  refused name hname := by
    rw [after_concat]
    exact choose_of_unknown _ hname

/-- **A flag that is set, and no factorisation**: another method is chosen after a system was factored, and
the right-hand side for it is not solved for. -/
theorem succeeded_not_usable :
    let calls : List (Call Exact) := [.decompose skewSystem.exact, .choose "nullspace"]
    (after .fullspace calls).succeeded = true ∧ ¬(after .fullspace calls).Usable skewSystem.exact ∧
      (after .fullspace calls).solve skewRhs.exact = .error .nothingFactored := by
  intro calls
  have hheld : (after .fullspace calls).held = none := rfl
  refine ⟨?_, ?_, solve_of_held_none hheld _⟩
  · have hsome : (skewSystem.exact.factor .fullspace).isSome = true := by
      rw [System.isSome_factor_iff skewSystem_x_ne_zero]
      exact ⟨isUnit_skewSystem.1, nofun⟩
    exact hsome
  · rintro ⟨F, -, hsome, -⟩
    rw [hheld] at hsome
    cases hsome

end Solver

end GibbsNewton.Kkt
