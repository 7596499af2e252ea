import GibbsNewton.Optimum.Iterate

/-!
# Newton runs

A run starts from an interior point and makes one Newton step an iteration, cut short so that
variables and bound multipliers stay positive.  It ends in one of three ways:

* it has converged, as soon as the largest residual after a step is below the tolerance;
* it has used up its iterations;
* it has failed, because no finite Newton direction was found, or because the values of the problem
  after a step are not all finite.

A run is kept as the record of its steps, so that everything asked of it afterwards — the final
state, the number of iterations, the table of the iterates — is read off that record.

## Main definitions

* `Optimum.Update`, `Optimum.Ending`, `Optimum.Run` — a completed step, the way a run ended, a run.
* `Optimum.Problem.pursue` — the iteration; `Optimum.Problem.run` — a run from a caller's start.
* `Optimum.Run.final`, `Optimum.Run.report` — where a run ended, and the summary of it.
-/

namespace GibbsNewton.Optimum

variable {α : Type} {n m : Nat}

/-! ### Records -/

/-- A step after which every value of the problem is finite. -/
structure Update (α : Type) (n m : Nat) where
  /-- The lengths of the step. -/
  lengths : StepLengths α
  /-- The state reached. -/
  state : State α n m
  /-- Its residuals. -/
  residuals : Residuals α

/-- The way a run ended. -/
inductive Ending (α : Type) (n m : Nat)
  /-- The last residuals are below the tolerance. -/
  | converged
  /-- No iteration is left. -/
  | iterationLimit
  /-- No finite Newton direction exists at the last state. -/
  | noDirection
  /-- One more step was made, to a state whose values are not all finite. -/
  | notFinite (state : State α n m)

/-- A run: where it started, its completed steps, and how it ended. -/
structure Run (α : Type) (n m : Nat) where
  /-- The state it started from. -/
  start : State α n m
  /-- Its completed steps. -/
  updates : List (Update α n m)
  /-- How it ended. -/
  ending : Ending α n m

/-- The outcome of a run in a word. -/
inductive Status
  /-- Nothing was run yet. -/
  | running
  /-- The residuals got below the tolerance. -/
  | converged
  /-- The iterations were used up. -/
  | iterationLimit
  /-- No step or no finite values could be computed. -/
  | numericFailure
  deriving DecidableEq, Repr, Inhabited

/-- The name of an outcome. -/
def Status.name : Status → String
  | running => "running"
  | converged => "converged"
  | iterationLimit => "iteration_limit"
  | numericFailure => "numeric_failure"

/-- The summary of a run. -/
structure Report (α : Type) where
  /-- The outcome. -/
  status : Status := .running
  /-- The number of the iteration in which the run ended. -/
  iterations : Nat := 0
  /-- The largest residual measured last; nothing when none was, which stands for infinity. -/
  error : Option α := none

/-- Whether a run converged. -/
def Report.succeeded (r : Report α) : Bool := r.status == .converged

namespace Run

/-- The last state whose values are all finite or that the run started from. -/
def lastUpdated (r : Run α n m) : State α n m := (r.updates.getLast?.map Update.state).getD r.start

/-- The state a run leaves behind. -/
def final (r : Run α n m) : State α n m :=
  match r.ending with
  | .notFinite state => state
  | _ => r.lastUpdated

/-- The states of a run in order: the start, and one for every completed step. -/
def states (r : Run α n m) : List (State α n m) := r.start :: r.updates.map Update.state

end Run

/-- The outcome that an ending stands for. -/
def Ending.status : Ending α n m → Status
  | converged => .converged
  | iterationLimit => .iterationLimit
  | noDirection => .numericFailure
  | notFinite _ => .numericFailure

variable [Scalar α]

/-- The summary of a run.  A run that did not converge ended in an iteration of its own. -/
def Run.report (r : Run α n m) : Report α where
  status := r.ending.status
  iterations :=
    match r.ending with
    | .converged => r.updates.length
    | _ => r.updates.length + 1
  error := r.updates.getLast?.map fun u => u.residuals.worst

/-! ### Iterating -/

/-- The Newton direction at a state, if there is one, and the solver that found it. -/
def Problem.direction? (p : Problem α n m) (o : Settings α) (kkt : Kkt.Solver α)
    (s : State α n m) : Option (Kkt.Direction α n m) × Kkt.Solver α :=
  kkt.direction? (s.system p o.scheme) (s.rhs o.mu)

/-- The completed steps from a state on, at most as many as iterations are left, and the way they
end. -/
def Problem.pursue (p : Problem α n m) (o : Settings α) :
    Nat → Kkt.Solver α → State α n m → List (Update α n m) × Ending α n m × Kkt.Solver α
  | 0, kkt, _ => ([], .iterationLimit, kkt)
  | left + 1, kkt, s =>
    match p.direction? o kkt s with
    | (none, kkt) => ([], .noDirection, kkt)
    | (some d, kkt) =>
      let lengths := s.lengths d o.tau
      let next := (s.step d lengths o.uniform).evaluate p
      if next.values.isFinite then
        let residuals := next.residuals o.mu
        let update : Update α n m := { lengths, state := next, residuals }
        if Scalar.lt residuals.worst o.tolerance then ([update], .converged, kkt)
        else
          let (updates, ending, kkt) := p.pursue o left kkt next
          (update :: updates, ending, kkt)
      else ([], .notFinite next, kkt)

/-- The run from a start, and the solver afterwards. -/
def Problem.run (p : Problem α n m) (o : Settings α) (kkt : Kkt.Solver α) (s : Start α) :
    Run α n m × Kkt.Solver α :=
  let start := (s.iterate o.mu o.mux n m).evaluate p
  let (updates, ending, kkt) := p.pursue o o.maxIterations (kkt.setMethod o.method) start
  ({ start, updates, ending }, kkt)

end GibbsNewton.Optimum
