import GibbsNewton.Formula
import GibbsNewton.Json.Basic
import GibbsNewton.Decimal.Read

/-!
# Formulas in JSON

A formula as a JSON object from elements to numbers of atoms.  A number of atoms is a number, a
truth value or the text of a number.

## Main definitions

* `Formula.readAtoms` — the number of atoms of an element in a JSON formula.
* `Formula.CountError` — why there is none.
* `Formula.matrixOf` — the formula matrix for formulas in JSON, or for the common ones.
-/

namespace GibbsNewton.Formula

/-- Why a number of atoms could not be read. -/
inductive CountError
  /-- The formula is no object. -/
  | noObject
  /-- The value is a text that is no number. -/
  | noNumber
  /-- The value is a null, a list or an object. -/
  | noScalar
  deriving DecidableEq, Repr

/-- A JSON value as a number of atoms. -/
def readCount : Json → Except CountError Float
  | .int n => .ok (Decimal.ofInt n)
  | .real x => .ok x
  | .bool b => .ok (if b then 1 else 0)
  | .text s =>
    match Decimal.read? s with
    | some x => .ok x
    | none => .error .noNumber
  | _ => .error .noScalar

/-- The number of atoms of an element in a JSON formula. -/
def readAtoms (formula : Json) (element : String) : Except CountError Float :=
  match formula with
  | .object fields =>
    match fields.lookup element with
    | some value => readCount value
    | none => .ok 0
  | _ => .error .noObject

/-- A formula with whole numbers of atoms in JSON. -/
def Atoms.toJson (formula : Atoms) : Json :=
  .object (formula.map fun (element, count) => (element, .int count))

/-- The formulas of an object; of anything else, none. -/
def tableOf : Json → List (String × Json)
  | .object fields => fields
  | _ => []

/-- The formula matrix of some species with respect to some elements, with formulas from a JSON
object or, when there is none, those of the common species. -/
def matrixOf (formulas : Option Json) (species elements : List String) :
    Except (MatrixError CountError) (Tensor Float) :=
  let table :=
    match formulas with
    | some j => tableOf j
    | none => common.map fun (name, formula) => (name, formula.toJson)
  matrix readAtoms table species elements

end GibbsNewton.Formula
