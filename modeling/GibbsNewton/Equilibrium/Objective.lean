import GibbsNewton.Equilibrium.Session
import GibbsNewton.Memo
import GibbsNewton.Value.Key

/-!
# The objective of an equilibrium problem

A run asks for the Gibbs energy and for its gradient at one point after the other.  Both come out of one
evaluation, and the last evaluation is remembered, so that a second question at the same point is answered
without another.  Points are told apart as arrays are: by the bytes of their entries.

## Main definitions

* `Equilibrium.Problem.energyAndGradient` — one evaluation.
* `Equilibrium.Objective` — the objective of a problem with what it remembers, with `Objective.energy`
  and `Objective.gradient`.
-/

namespace GibbsNewton.Equilibrium

variable {n m : Nat}

/-- The Gibbs energy and its gradient at a point, unless they cannot be evaluated. -/
def Problem.energyAndGradient {α : Type} (p : Problem α n m) (a : Vec α n) :
    Except (SolveError α) (α × Vec α n) :=
  if p.model.isEvaluable then .ok (p.model.energy a, p.model.gradient a) else .error .notEvaluable

/-- What tells a point apart as an argument. -/
def pointKey (a : Vec Float n) : List ArgumentKey :=
  StoredArray.keys EntryType.text [(Tensor.ofList a.toList).stored]

/-- The objective of a problem, and what it remembers. -/
structure Objective (n m : Nat) where
  /-- The problem. -/
  problem : Problem Float n m
  /-- The last evaluation. -/
  memo : Memo (List ArgumentKey) (Float × Vec Float n) := {}

namespace Objective

/-- The energy and the gradient at a point, as remembered or evaluated. -/
def evaluate (o : Objective n m) (a : Vec Float n) :
    Except (SolveError Float) (Float × Vec Float n) × Objective n m :=
  let (answer, memo) := o.memo.ask sameKeys pointKey o.problem.energyAndGradient a
  (answer, { o with memo })

/-- The Gibbs energy at a point. -/
def energy (o : Objective n m) (a : Vec Float n) :
    Except (SolveError Float) Float × Objective n m :=
  let (answer, o) := o.evaluate a
  (answer.map Prod.fst, o)

/-- The gradient of the Gibbs energy at a point. -/
def gradient (o : Objective n m) (a : Vec Float n) :
    Except (SolveError Float) (Vec Float n) × Objective n m :=
  let (answer, o) := o.evaluate a
  (answer.map Prod.snd, o)

end Objective

end GibbsNewton.Equilibrium
