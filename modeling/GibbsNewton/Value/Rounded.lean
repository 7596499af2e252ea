import GibbsNewton.Choice
import GibbsNewton.Value.Text
import GibbsNewton.Json.Printer

/-!
# Rounded reports

A report on a value rounds every number in it to some decimal places and leaves only mappings,
lists and plain values: a tuple and an array become lists, a record inside another value becomes
the list or the mapping that its kind says.  At the top the value is seen as a mapping.  The report
is then kept as a value, written as JSON, or laid out as a table.

## Main definitions

* `Rounds` — numbers that can be rounded to decimal places.
* `Value.rounded` — a value inside a report.
* `Value.report` — the report on a value.
* `Value.render?` — a report in one of the formats of `ReportFormat`.
-/

namespace GibbsNewton

/-- Numbers that can be rounded to decimal places, to tens and hundreds where the number of places
is negative. -/
class Rounds (α : Type) where
  /-- The nearest number with that many places. -/
  round : Int → α → α

instance instRoundsFloat : Rounds Float := ⟨Decimal.roundFloat⟩

/-- The nearest fraction with that many decimal places, ties to even. -/
instance instRoundsRat : Rounds Rat where
  round places x :=
    let units : Int := Decimal.roundPlaces places x.num.natAbs x.den
    let signed := if x.num < 0 then -units else units
    match places with
    | .ofNat k => mkRat signed (Decimal.tenPow k)
    | .negSucc k => mkRat (signed * Decimal.tenPow (k + 1)) 1

namespace Value

variable {α : Type}

section

variable [Rounds α]

mutual

/-- A value inside a report. -/
def rounded (places : Int) : Value α → Value α
  | real x => real (Rounds.round places x)
  | list items => list (roundedItems places items)
  | tuple items => list (roundedItems places items)
  | mapping fields => mapping (roundedFields places fields)
  | array t => Tensor.nest (fun x => real (Rounds.round places x)) list t.shape t.entries
  | intArray t => Tensor.nest int list t.shape t.entries
  | record .positional _ fields => list (roundedValues places fields)
  | record .mapping _ fields => mapping (roundedFields places fields)
  | none => none
  | bool b => bool b
  | int n => int n
  | text s => text s

/-- The items of a list inside a report. -/
def roundedItems (places : Int) : List (Value α) → List (Value α)
  | [] => []
  | item :: items => rounded places item :: roundedItems places items

/-- The fields of a mapping inside a report. -/
def roundedFields (places : Int) : List (String × Value α) → List (String × Value α)
  | [] => []
  | (key, value) :: fields => (key, rounded places value) :: roundedFields places fields

/-- The values of the fields of a record inside a report. -/
def roundedValues (places : Int) : List (String × Value α) → List (Value α)
  | [] => []
  | (_, value) :: fields => rounded places value :: roundedValues places fields

end

/-- The report on a value. -/
def report (places : Int) (v : Value α) : Value α := mapping (roundedFields places v.fields)

end

/-! ### Formats -/

mutual

/-- A report as JSON. -/
def toJson : Value Float → Json
  | none => .null
  | bool b => .bool b
  | int n => .int n
  | real x => .real x
  | text s => .text s
  | list items => .list (toJsonItems items)
  | tuple items => .list (toJsonItems items)
  | mapping fields => .object (toJsonFields fields)
  | array t => Tensor.nest .real .list t.shape t.entries
  | intArray t => Tensor.nest .int .list t.shape t.entries
  | record _ _ fields => .object (toJsonFields fields)

/-- The items of a list as JSON. -/
def toJsonItems : List (Value Float) → List Json
  | [] => []
  | item :: items => toJson item :: toJsonItems items

/-- The fields of a mapping as JSON. -/
def toJsonFields : List (String × Value Float) → List (String × Json)
  | [] => []
  | (key, value) :: fields => (key, toJson value) :: toJsonFields fields

end

/-- The lines of a field in a table: its key, padded to a width, and its value; a mapping gets a
line of its own for every field in it. -/
def tableLines (width : Nat) (key : String) : Value Float → List String
  | mapping fields => (key ++ ":") :: fields.map fun (k, v) => "  " ++ k ++ ": " ++ v.plain
  | v => [key ++ String.ofList (List.replicate (width - key.length) ' ') ++ ": " ++ v.plain]

/-- A mapping as a table, one with no field having none. -/
def table? (fields : List (String × Value Float)) : Option String :=
  if fields.isEmpty then Option.none
  else
    let width := (fields.map (·.1.length)).foldl max 0
    some ("\n".intercalate (fields.flatMap fun (key, v) => tableLines width key v))

end Value

/-- The formats of a report. -/
inductive ReportFormat
  /-- The value itself. -/
  | value
  /-- Indented JSON. -/
  | json
  /-- One line a field. -/
  | table
  deriving DecidableEq, Repr

namespace ReportFormat

/-- Every format, in the order in which they are offered. -/
def all : List ReportFormat := [value, json, table]

/-- The name by which a format is chosen. -/
def name : ReportFormat → String
  | value => "dict"
  | json => "json"
  | table => "table"

/-- The format of a name. -/
def ofName? (s : String) : Option ReportFormat := all.find? (·.name == s)

/-- The format of a name, or the refusal of one that has none. -/
def choose (s : String) : Except UnknownName ReportFormat :=
  match ofName? s with
  | some f => .ok f
  | none => .error ⟨"format type", s, all.map name⟩

end ReportFormat

/-- A report in one of its formats. -/
inductive Rendered
  /-- A value. -/
  | value (v : Value Float)
  /-- A text. -/
  | text (s : String)

/-- The report on a value in a format; one without fields has no table. -/
def Value.render? (places : Int) (v : Value Float) : ReportFormat → Option Rendered
  | .value => some (.value (v.report places))
  | .json => some (.text (v.report places).toJson.pretty)
  | .table => (table? (v.report places).fields).map .text

end GibbsNewton
