import GibbsNewton.Optimum.Run

/-!
# The table of a run

What a run shows: a row for the state it started from and one for every completed step, with the
number of the iteration, the variables and multipliers, the objective, the size of the constraints,
the residuals and the step lengths.  The first row has no residuals and no lengths yet and shows
dashes in their place.  The names of the columns stand above the first row and once more at the end.

## Main definitions

* `Optimum.Run.record` — the table of a run.
-/

namespace GibbsNewton.Optimum

variable {α : Type} [Scalar α] {n m : Nat}

/-- The columns after those of the variables and multipliers. -/
def measures : List String :=
  ["f(x)", "h(x)", "errorf", "errorh", "errorc", "error", "alpha", "alphax", "alphaz"]

/-- An empty table with the columns of a run of `n` variables and `m` constraints. -/
def columns (l : Layout) (n m : Nat) : Table α :=
  let t : Table α := { layout := l }
  let t := t.addColumn "iter"
  let t := t.addColumns l.xprefix n l.xnames
  let t := t.addColumns l.yprefix m l.ynames
  let t := t.addColumns l.zprefix n l.znames
  measures.foldl Table.addColumn t

/-- The cells of a state in the row of an iteration, up to the size of its constraints. -/
def State.record (s : State α n m) (iteration : Nat) (t : Table α) : Table α :=
  let t := t.addCell (.int iteration)
  let t := t.addNumbers s.x.toList
  let t := t.addNumbers s.y.toList
  let t := t.addNumbers s.z.toList
  t.addNumbers [s.values.objective, s.values.constraint.normInf]

/-- The row of the state that a run started from. -/
def State.recordStart (s : State α n m) (t : Table α) : Table α :=
  ((List.replicate 7 (Value.text "---")).foldl Table.addCell (s.record 0 t)).closeRow

/-- The row of a completed step. -/
def Update.record (u : Update α n m) (iteration : Nat) (t : Table α) : Table α :=
  let r := u.residuals
  let l := u.lengths
  ((u.state.record iteration t).addNumbers
    [r.stationarity, r.feasibility, r.centrality, r.worst, l.common, l.primal, l.dual]).closeRow

/-- The rows of completed steps, the first of which is numbered. -/
def recordUpdates : List (Update α n m) → Nat → Table α → Table α
  | [], _, t => t
  | u :: us, iteration, t => recordUpdates us (iteration + 1) (u.record iteration t)

/-- The table of a run; one that is not active stays empty. -/
def Run.record (r : Run α n m) (l : Layout) : Table α :=
  if l.active then
    (recordUpdates r.updates 1 (r.start.recordStart (columns l n m).printHeader)).printHeader
  else { layout := l }

end GibbsNewton.Optimum
