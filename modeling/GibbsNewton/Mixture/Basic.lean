import GibbsNewton.Mixture.Phase

/-!
# Ideal mixtures

The Gibbs energy of an ideal mixture, in units of `R T`, at amounts `a`:

    G(a) = ∑ aᵢ (uᵢ + ln activityᵢ)

where `u` are the standard potentials and the logarithmic activity of a species in a phase is

    [ln sᵢ - ln (∑ s over the phase)]   if the phase has two or more species
    + [ln (P / 1 bar)]                  if the phase is a gas

Logarithms see the amounts raised to a small floor, `s = max(a, floor)`, so they are defined at the
boundary as well.

The values come together phase by phase, and a phase finds the places of its species by taking them as
an index.  So a phase without species can be declared, but where it is asked for its index the evaluation
stops, which is what a gas does for the pressure.

## Main definitions

* `Mixture` — a mixture; `Mixture.ofSpecs` makes one.
* `Mixture.energy`, `Mixture.potentials` — the Gibbs energy and the chemical potentials.
* `Mixture.curvature` — the second derivatives where no amount is below the floor.
* `Mixture.energy?`, `Mixture.potentials?`, `Mixture.curvature?` — the same as an evaluation that takes
  the species of a phase as an index.
-/

namespace GibbsNewton

/-- A pressure of one bar, at which standard potentials hold. -/
def standardPressure {α : Type} [Scalar α] : α := Scalar.ofNat 100000

/-- An ideal mixture of `n` species. -/
structure Mixture (α : Type) (n : Nat) where
  /-- The standard potentials. -/
  standard : Vec α n
  /-- The pressure in pascals. -/
  pressure : α
  /-- The least amount that a logarithm sees. -/
  floor : α
  /-- The phases. -/
  phases : List (Phase n)
  /-- The phases share out all species. -/
  partition : isPartition phases = true

variable {α : Type} {n : Nat}

/-! ### One phase -/

section

variable [Scalar α]

/-- Logarithmic activities with the shares of some species in their sum put in, at raised amounts. -/
def putShares (species : List (Fin n)) (s L : Vec α n) : Vec α n :=
  let whole := Scalar.log (species.foldl (fun t i => t + s i) 0)
  Vec.of fun i => if species.contains i then Scalar.log (s i) - whole else L i

/-- Logarithmic activities with a term added to those of some species. -/
def addTerm (species : List (Fin n)) (t : α) (L : Vec α n) : Vec α n :=
  Vec.of fun i => if species.contains i then L i + t else L i

/-- Second derivatives with the block of some species put in. -/
def putBlock (species : List (Fin n)) (s : Vec α n) (H : Mat α n n) : Mat α n n :=
  let whole := 1 / species.foldl (fun t i => t + s i) 0
  Mat.of fun i j =>
    if species.contains i && species.contains j then (if i = j then 1 / s i else 0) - whole else H i j

/-- Logarithmic activities after the turn of one phase: the shares where its species dilute each other,
the logarithm of the pressure where it is a gas. -/
def Phase.putActivities? (p : Phase n) (s : Vec α n) (logPressure : α) (L : Vec α n) :
    Option (Vec α n) := do
  let L ← if p.isMixed then p.index?.map fun species => putShares species s L else some L
  if p.isGas then p.index?.map fun species => addTerm species logPressure L else some L

/-- Second derivatives after the turn of one phase. -/
def Phase.putCurvature? (p : Phase n) (s : Vec α n) (H : Mat α n n) : Option (Mat α n n) :=
  if p.isMixed then p.index?.map fun species => putBlock species s H else some H

/-- Logarithmic activities with those of the species of one phase put in, at raised amounts and for
the logarithm of the pressure. -/
def Phase.putActivities (p : Phase n) (s : Vec α n) (logPressure : α) (L : Vec α n) : Vec α n :=
  let whole := Scalar.log (p.total s)
  Vec.of fun i =>
    if p.species.contains i then
      let mixing := if p.isMixed then Scalar.log (s i) - whole else L i
      if p.isGas then mixing + logPressure else mixing
    else L i

/-- Second derivatives with the block of one phase put in: reciprocal amounts on the diagonal, less
the reciprocal of the whole everywhere. -/
def Phase.putCurvature (p : Phase n) (s : Vec α n) (H : Mat α n n) : Mat α n n :=
  if p.isMixed then
    let whole := 1 / p.total s
    Mat.of fun i j =>
      if p.species.contains i && p.species.contains j then
        (if i = j then 1 / s i else 0) - whole
      else H i j
  else H

end

/-! ### The whole mixture -/

namespace Mixture

/-- Whether the mixture can be evaluated: no gas phase is without species. -/
def isEvaluable (x : Mixture α n) : Bool := x.phases.all fun p => !p.isEmptyGas

section

variable [Scalar α]

/-- The amounts that logarithms see. -/
def raised (x : Mixture α n) (a : Vec α n) : Vec α n := a.map fun t => Scalar.maximum t x.floor

/-- The logarithmic activities. -/
def logActivities (x : Mixture α n) (a : Vec α n) : Vec α n :=
  let s := x.raised a
  let logPressure := Scalar.log (x.pressure / standardPressure)
  x.phases.foldl (fun L p => p.putActivities s logPressure L) (Vec.const n 0)

/-- The chemical potentials. -/
def potentials (x : Mixture α n) (a : Vec α n) : Vec α n := x.standard.add (x.logActivities a)

/-- The Gibbs energy. -/
def energy (x : Mixture α n) (a : Vec α n) : α := a.dot (x.potentials a)

/-- The second derivatives of the Gibbs energy as if no amount were below the floor. -/
def curvature (x : Mixture α n) (a : Vec α n) : Mat α n n :=
  let s := x.raised a
  x.phases.foldl (fun H p => p.putCurvature s H) (Vec.const n (Vec.const n 0))

/-- The logarithmic activities, phase by phase. -/
def logActivities? (x : Mixture α n) (a : Vec α n) : Option (Vec α n) :=
  let s := x.raised a
  let logPressure := Scalar.log (x.pressure / standardPressure)
  x.phases.foldlM (fun L p => p.putActivities? s logPressure L) (Vec.const n 0)

/-- The chemical potentials, if the logarithmic activities come out. -/
def potentials? (x : Mixture α n) (a : Vec α n) : Option (Vec α n) :=
  (x.logActivities? a).map x.standard.add

/-- The Gibbs energy, if the chemical potentials come out. -/
def energy? (x : Mixture α n) (a : Vec α n) : Option α := (x.potentials? a).map a.dot

/-- The second derivatives as if no amount were below the floor, phase by phase. -/
def curvature? (x : Mixture α n) (a : Vec α n) : Option (Mat α n n) :=
  let s := x.raised a
  x.phases.foldlM (fun H p => p.putCurvature? s H) (Vec.const n (Vec.const n 0))

/-- The floor of a mixture that names none. -/
def defaultFloor : α := Scalar.decimal 1 50

end

/-- The mixture of some phases, unless they do not share out all species. -/
def ofSpecs (standard : Vec α n) (specs : List PhaseSpec) (pressure floor : α) :
    Except PartitionError (Mixture α n) :=
  match specs.mapM (Phase.ofSpec? n) with
  | none => .error (.ofSpecs n specs)
  | some phases =>
    if h : isPartition phases = true then
      .ok { standard, pressure, floor, phases, partition := h }
    else .error (.ofSpecs n specs)

end Mixture

end GibbsNewton
