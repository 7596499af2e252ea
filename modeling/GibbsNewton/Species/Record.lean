import GibbsNewton.Formula.Json
import GibbsNewton.Thermo.Fit
import GibbsNewton.Value.Key

/-!
# Species records

The record of a species, read from a JSON object with its formula and its fits below and above a
midpoint temperature.  The fit below may be left out or, with a warning, be dropped because it has
another length; the fit above then stands in for it.  The descriptive fields may hold anything.

A file holds an object whose field `species` maps names to records.

## Main definitions

* `Species`, `Species.ofJson` — a record.
* `Species.readAll` — all records of a file.
* `Species.coefficients` — the fit at a temperature.
* `Species.potentials` — the standard potentials of some species at a temperature.
-/

namespace GibbsNewton

/-- The record of a species. -/
structure Species where
  /-- The name under which it was found. -/
  name : String
  /-- A longer name. -/
  fullName : Json
  /-- The number of atoms of each element. -/
  formula : List (String × Float)
  /-- The mass of a mole. -/
  molecularWeight : Json
  /-- The phase. -/
  phase : Json
  /-- The coefficients above the midpoint. -/
  high : Tensor Float
  /-- The coefficients below the midpoint, and at it. -/
  low : Tensor Float
  /-- The midpoint temperature. -/
  midpoint : Json

namespace Species

/-- Why a record cannot be read. -/
inductive ReadError
  /-- Something that should be an object is none. -/
  | noObject
  /-- A field is missing. -/
  | missing (key : String)
  /-- The coefficients have no length. -/
  | noLength
  /-- A number of atoms is none. -/
  | count (e : Formula.CountError)
  /-- Some coefficient is a null, or the coefficients are ragged. -/
  | noArray
  /-- Some coefficient is a text or an object. -/
  | noNumber
  deriving DecidableEq, Repr

/-! ### One record -/

/-- The fields of an object. -/
def fieldsOf : Json → Except ReadError (List (String × Json))
  | .object fields => .ok fields
  | _ => .error .noObject

/-- A field that must be there. -/
def need (key : String) (fields : List (String × Json)) : Except ReadError Json :=
  match fields.lookup key with
  | some value => .ok value
  | none => .error (.missing key)

/-- The number of items, of characters or of fields. -/
def lengthOf : Json → Except ReadError Nat
  | .list items => .ok items.length
  | .text s => .ok s.length
  | .object fields => .ok fields.length
  | _ => .error .noLength

/-- Whether a value is null. -/
def isNull : Json → Bool
  | .null => true
  | _ => false

/-- Whether a value is a text. -/
def isText : Json → Bool
  | .text _ => true
  | _ => false

/-- Coefficients as an array. -/
def coefficientsOf (j : Json) : Except ReadError (Tensor Float) :=
  if j.anyLeaf isNull then .error .noArray
  else if j.anyLeaf isText then .error .noNumber
  else
    match Tensor.ofJson j with
    | .ok t => .ok t
    | .error .mapping => .error .noNumber
    | .error _ => .error .noArray

/-- The numbers of atoms in a formula. -/
def atomsOf (formula : Json) : Except ReadError (List (String × Float)) := do
  (← fieldsOf formula).mapM fun (element, count) =>
    match Formula.readCount count with
    | .ok x => .ok (element, x)
    | .error e => .error (.count e)

/-- The midpoint of a record that gives none. -/
def defaultMidpoint : Float := 1000

/-- The record of a name, and whether a fit was dropped. -/
def ofJson (name : String) (data : Json) : Except ReadError (Species × Bool) := do
  let fields ← fieldsOf data
  let high ← need "coeffs_high" fields
  let low := (fields.lookup "coeffs_low").getD high
  let dropped := (← lengthOf low) != (← lengthOf high)
  let low := if dropped then high else low
  let formula ← atomsOf (← need "formula" fields)
  let species : Species := {
    name
    fullName := (fields.lookup "name").getD (.text name)
    formula
    molecularWeight := (fields.lookup "molecular_weight").getD (.real 0)
    phase := (fields.lookup "phase").getD (.text "gas")
    high := ← coefficientsOf high
    low := ← coefficientsOf low
    midpoint := (fields.lookup "T_mid").getD (.real defaultMidpoint) }
  return (species, dropped)

/-! ### A file -/

/-- The message about a dropped fit. -/
def droppedMessage (name : String) : String :=
  "WARNING: " ++ name ++
    ": low/high coefficient lengths differ, using high-T set for both"

/-- All records of a file, and whether a fit was dropped in each. -/
def readAll (file : Json) : Except ReadError (List (Species × Bool)) := do
  let fields ← fieldsOf file
  let table ← fieldsOf ((fields.lookup "species").getD (.object []))
  table.mapM fun (name, data) => ofJson name data

/-! ### Properties -/

/-- A midpoint as a number. -/
def midpoint? (s : Species) : Option ExactNumber :=
  match s.midpoint with
  | .int n => some (.int n)
  | .real x => some (.real x)
  | .bool b => some (.int (if b then 1 else 0))
  | _ => none

/-- The coefficients that hold at a temperature, if the midpoint is a number. -/
def coefficients? (s : Species) (t : Float) : Option (Tensor Float) :=
  s.midpoint?.map fun midpoint => if midpoint.ltReal t then s.high else s.low

/-- Why standard potentials could not be computed. -/
inductive PotentialError
  /-- No species is asked for, or their fits differ in length. -/
  | lengths
  /-- A midpoint is no number, or one that does not become a double. -/
  | midpoint
  /-- The fits have no coefficients. -/
  | empty
  deriving DecidableEq, Repr

/-- The standard potentials of fits of one length, in units of `R T`. -/
def potentialsOf (t : Float) (fits : List (Tensor Float)) : Except PotentialError (List Float) :=
  if fits.all fun c => some c.shape == fits.head?.map Tensor.shape then
    if fits.isEmpty then .error .lengths
    else
      fits.mapM fun c =>
        match Fit.ofList? c.entries with
        | some c => .ok (c.potential t)
        | none => .error .empty
  else .error .lengths

/-- The standard potentials of fits below and above one midpoint, the same for all of them, which
becomes a double. -/
def potentialsAbout (t : Float) (midpoint : ExactNumber) (low high : List (Tensor Float)) :
    Except PotentialError (List Float) :=
  if (low ++ high).all fun c => some c.shape == low.head?.map Tensor.shape then
    match midpoint.toFloat? with
    | some m => potentialsOf t (chooseRange t m low high)
    | none => .error .midpoint
  else .error .lengths

/-- The standard potentials of some species at a temperature, in units of `R T`.  If they have one
midpoint, a range is chosen for all at once; otherwise one is chosen for each, and the fits chosen
stand for both ranges. -/
def potentials (species : List Species) (t : Float) : Except PotentialError (List Float) :=
  match species.mapM (·.midpoint?) with
  | none => .error .midpoint
  | some [] => .error .lengths
  | some (midpoint :: others) =>
    if others.all (·.same midpoint) then
      potentialsAbout t midpoint (species.map low) (species.map high)
    else
      match species.mapM (·.coefficients? t) with
      | some fits => potentialsAbout t (.real defaultMidpoint) fits fits
      | none => .error .midpoint

/-- The number of atoms of an element in a species, none if its formula does not mention it. -/
def atoms (s : Species) (element : String) : Float := (s.formula.lookup element).getD 0

/-- The formula matrix of some species. -/
def formulaMatrix (species : List Species) (elements : List String) : Tensor Float :=
  Formula.ofColumns elements.length (species.map fun s => elements.map s.atoms)

end Species

end GibbsNewton
