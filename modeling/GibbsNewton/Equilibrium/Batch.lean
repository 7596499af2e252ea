import GibbsNewton.Equilibrium.Session

/-!
# Batches

Several samples of one formula matrix, each with a Gibbs model and a session of its own, so that
nothing done for one sample has any influence on another.

## Main definitions

* `Equilibrium.Batch` — the samples; `Batch.ofModels` makes them.
* `Batch.setAll`, `Batch.setSubset` — give samples the amounts to start from.
* `Batch.states` — the amounts of every sample.
* `Batch.equilibrate` — a calculation for every sample.
-/

namespace GibbsNewton.Equilibrium

/-- A sample with its Gibbs model and its session. -/
structure Sample (α : Type) (n : Nat) where
  /-- The model. -/
  model : GibbsModel α n
  /-- The session. -/
  session : Session α := {}

/-- The samples of one formula matrix. -/
structure Batch (α : Type) (n m : Nat) where
  /-- The formula matrix. -/
  formula : Mat α m n
  /-- The options of every calculation. -/
  options : Options α
  /-- The samples. -/
  samples : List (Sample α n)

/-- Why a batch could not be made or solved. -/
inductive BatchError (α : Type)
  /-- There is not even one sample. -/
  | noSample (count : Int)
  /-- The number of models is not that of the samples. -/
  | models (count : Int) (given : Nat)
  /-- The element amounts are no rows, one for each sample. -/
  | amounts (count : Nat) (shape : List Nat)
  /-- The rows of element amounts do not go with the formula matrix. -/
  | balance (e : BalanceError)
  /-- The calculation for a sample was refused. -/
  | solve (e : SolveError α)

/-- The message about a number of samples below one. -/
def noSampleMessage (count : Int) : String := "num_samples must be >= 1, got " ++ toString count

/-- The message about a number of models that is not that of the samples. -/
def modelsMessage (count : Int) (given : Nat) : String :=
  "Expected " ++ toString count ++ " Gibbs models, got " ++ toString given

/-- The message about element amounts that are no rows, one for each sample. -/
def amountsMessage (count : Nat) (shape : List Nat) : String :=
  "element_amounts must have shape (" ++ toString count ++ ", E), got " ++ Tensor.shapeText shape

/-- A supply of things for samples: one for all, or one for each. -/
inductive Supply (β : Type)
  /-- One thing for all samples. -/
  | shared (b : β)
  /-- One thing for each sample. -/
  | each (bs : List β)

/-- One thing for each of as many samples as asked for, if there is at least one sample and the
supply fits. -/
def Supply.forSamples {α β : Type} (count : Int) (s : Supply β) : Except (BatchError α) (List β) :=
  if count < 1 then .error (.noSample count)
  else
    match s with
    | shared b => .ok (List.replicate count.toNat b)
    | each bs => if (bs.length : Int) = count then .ok bs else .error (.models count bs.length)

/-- The message about an unconverged sample. -/
def warning (k : Nat) (r : Optimum.Report Float) : String :=
  let error := match r.error with
    | some e => Decimal.scientific 3 e
    | none => "inf"
  "WARNING: sample " ++ toString k ++ " did not converge (status=" ++ r.status.name ++
    ", error=" ++ error ++ ")"

/-- A session with other amounts to start from. -/
def Session.setAmounts {α : Type} (s : Session α) (amounts : List α) : Session α :=
  { s with result := { s.result with point := { s.result.point with x := amounts } } }

namespace Sample

variable {α : Type} {n m : Nat}

/-- A sample with other amounts to start from. -/
def setAmounts (s : Sample α n) (amounts : List α) : Sample α n :=
  { s with session := s.session.setAmounts amounts }

variable [Scalar α]

/-- The amounts of a sample, zeros where it has none of the right number. -/
def amounts (s : Sample α n) : Vec α n := Vec.sized n s.session.result.point.x

/-- The calculation for one sample. -/
def solve (minimise : Optimum.Minimiser α) (s : Sample α n) (balance : Balance α n m)
    (o : Options α) : Except (SolveError α) Unit × Sample α n :=
  let (outcome, session) := s.session.solve minimise { balance with model := s.model } o
  (outcome, { s with session })

end Sample

/-- A number from zero, or from the end where it is negative, as a place among `count`. -/
def place? (count : Nat) (i : Int) : Option Nat :=
  let k := if i < 0 then i + count else i
  if 0 ≤ k ∧ k < count then some k.toNat else none

namespace Batch

variable {α : Type} {n m : Nat}

/-- A batch with a sample for each of some models. -/
def ofModels (formula : Mat α m n) (options : Options α) (models : List (GibbsModel α n)) :
    Batch α n m where
  formula := formula
  options := options
  samples := models.map fun model => { model }

/-- Gives all samples the same amounts to start from. -/
def setAll (b : Batch α n m) (amounts : List α) : Batch α n m :=
  { b with samples := b.samples.map (·.setAmounts amounts) }

/-- Gives some samples the same amounts to start from, up to the first number that stands for no
sample, and says whether all did. -/
def setSubset (amounts : List α) : List Int → Batch α n m → Bool × Batch α n m
  | [], b => (true, b)
  | i :: is, b =>
    match place? b.samples.length i with
    | none => (false, b)
    | some k =>
      setSubset amounts is { b with samples := b.samples.modify k (·.setAmounts amounts) }

section

variable [Scalar α]

/-- The amounts of every sample. -/
def states (b : Batch α n m) : List (Vec α n) := b.samples.map Sample.amounts

/-- A calculation for each of some samples in turn, up to the first one that is refused. -/
def solveSamples (minimise : Optimum.Minimiser α) (formula : Mat α m n) (o : Options α) :
    List (Sample α n) → List (Vec α m) → Except (SolveError α) Unit × List (Sample α n)
  | s :: ss, b :: bs =>
    match s.solve minimise { formula, amounts := b } o with
    | (.error e, s) => (.error e, s :: ss)
    | (.ok (), s) =>
      let (outcome, ss) := solveSamples minimise formula o ss bs
      (outcome, s :: ss)
  | ss, _ => (.ok (), ss)

/-- The rows of element amounts, one for each sample, if the array has them. -/
def rowsOf (b : Batch α n m) (amounts : Tensor α) : Except (BatchError α) (List (Vec α m)) :=
  match amounts.shape with
  | [count, size] =>
    if count = b.samples.length then
      match amounts.rows.mapM (Vec.ofList? m) with
      | some rows => .ok rows
      | none => .error (.balance (.sizes m size))
    else .error (.amounts b.samples.length amounts.shape)
  | shape => .error (.amounts b.samples.length shape)

/-- A calculation for every sample on its row of the element amounts. -/
def equilibrate (minimise : Optimum.Minimiser α) (b : Batch α n m) (amounts : Tensor α) :
    Except (BatchError α) Unit × Batch α n m :=
  match b.rowsOf amounts with
  | .error e => (.error e, b)
  | .ok rows =>
    let (outcome, samples) := solveSamples minimise b.formula b.options b.samples rows
    (outcome.mapError .solve, { b with samples })

end

/-- The messages about the samples that did not converge. -/
def warnings (b : Batch Float n m) : List String :=
  b.samples.zipIdx.filterMap fun (s, k) =>
    let report := s.session.result.optimum
    if report.succeeded then none else some (warning k report)

end Batch

end GibbsNewton.Equilibrium
