import GibbsNewton.Kkt.Factorization
import GibbsNewton.Choice

/-!
# A solver for Newton systems

A solver keeps one factorisation between calls: the method is chosen once, a system is factored,
and then solved for right-hand sides.  Its flag `succeeded` is set or cleared by each factoring and
cleared by a solution that is not finite; choosing another method drops the factorisation and keeps
the flag, and a name that is no method changes nothing.

## Main definitions

* `Kkt.Solver` — the state, with `Solver.choose`, `Solver.decompose` and `Solver.solve`.
* `Kkt.Solver.direction?` — factoring and solving in one go.

## Main results

* `Kkt.Solver.direction?_fst` — what `direction?` answers does not depend on earlier calls.
-/

namespace GibbsNewton.Kkt

/-- A name that is no method. -/
def Method.unknown (name : String) : UnknownName := ⟨"KKT method", name, Method.all.map Method.name⟩

/-- A system with its factorisation, if it has one. -/
structure Factored (α : Type) (n m : Nat) where
  /-- The system that was factored. -/
  system : System α n m
  /-- Its factorisation, or nothing if factoring failed. -/
  factors : Option (Factorization α n m)

/-- A factored system of some size. -/
structure Held (α : Type) where
  /-- The number of variables. -/
  n : Nat
  /-- The number of constraints. -/
  m : Nat
  /-- The factored system. -/
  factored : Factored α n m

/-- A solver between two calls. -/
structure Solver (α : Type) where
  /-- The method it factors by. -/
  method : Method
  /-- The system factored last, since the method was chosen. -/
  held : Option (Held α)
  /-- Whether the last factoring succeeded and every solution since was finite. -/
  succeeded : Bool

/-- Why a right-hand side could not be solved for. -/
inductive SolveError
  /-- Nothing was factored since the method was chosen. -/
  | nothingFactored
  /-- The right-hand side is of another size than the factored system. -/
  | sizeMismatch
  deriving DecidableEq, Repr

namespace Solver

variable {α : Type} {n m : Nat}

/-- A solver that has factored nothing yet. -/
def new (method : Method) : Solver α := { method, held := none, succeeded := false }

/-- Changes to another method. -/
def setMethod (s : Solver α) (method : Method) : Solver α := { s with method, held := none }

/-- Changes to the method of a name. -/
def choose (s : Solver α) (name : String) : Except UnknownName (Solver α) :=
  match Method.ofName? name with
  | some method => .ok (s.setMethod method)
  | none => .error (Method.unknown name)

variable [Scalar α]

/-- Factors a system. -/
def decompose (s : Solver α) (system : System α n m) : Solver α :=
  let factors := system.factor s.method
  { s with held := some ⟨n, m, system, factors⟩, succeeded := factors.isSome }

/-- Solves for a right-hand side with the factorisation held, if the factoring succeeded. -/
def solve (s : Solver α) (r : Rhs α n m) :
    Except SolveError (Option (Direction α n m) × Solver α) :=
  match s.held with
  | none => .error .nothingFactored
  | some ⟨n', m', held⟩ =>
    if h : n' = n ∧ m' = m then
      let held : Factored α n m := h.1 ▸ h.2 ▸ held
      match held.factors with
      | none => .ok (none, s)
      | some F =>
        let d := F.solve held.system r
        .ok (some d, { s with succeeded := s.succeeded && d.isFinite })
    else .error .sizeMismatch

/-- Factors a system and solves it, if both steps succeed. -/
def direction? (s : Solver α) (system : System α n m) (r : Rhs α n m) :
    Option (Direction α n m) × Solver α :=
  let s := s.decompose system
  match s.solve r with
  | .ok (some d, s) => (if s.succeeded then some d else none, s)
  | .ok (none, s) => (none, s)
  | .error _ => (none, s)

/-- The direction found is that of a fresh factorisation, and it is finite. -/
theorem direction?_fst (s : Solver α) (system : System α n m) (r : Rhs α n m) :
    (s.direction? system r).1 =
      (system.factor s.method).bind fun F =>
        if (F.solve system r).isFinite then some (F.solve system r) else none := by
  cases h : system.factor s.method with
  | none => simp [direction?, decompose, solve, h]
  | some F => simp [direction?, decompose, solve, h]

/-- Factoring and solving leave the method as it is. -/
theorem direction?_snd_method (s : Solver α) (system : System α n m) (r : Rhs α n m) :
    (s.direction? system r).2.method = s.method := by
  cases h : system.factor s.method with
  | none => simp [direction?, decompose, solve, h]
  | some F => simp [direction?, decompose, solve, h]

end Solver

end GibbsNewton.Kkt
