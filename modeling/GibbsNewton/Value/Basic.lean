import GibbsNewton.Tensor

/-!
# Values

The values that results are made of and that a table shows in its cells.  They are polymorphic in
their numbers: a run over any scalar fills a table with values, and at `Float` they have a text.

## Main definitions

* `Value` — the values.
* `RecordKind` — whether a record is positional, hence also a list of its fields, or a mapping.
* `Value.fields` — a value seen as a mapping, as a report on it starts.
-/

namespace GibbsNewton

/-- How a record may be looked at. -/
inductive RecordKind
  /-- As a list of its fields in order of declaration. -/
  | positional
  /-- As a mapping from field names. -/
  | mapping
  deriving DecidableEq, Repr

/-- A value with numbers in `α`. -/
inductive Value (α : Type)
  /-- No value. -/
  | none
  /-- A truth value. -/
  | bool (b : Bool)
  /-- A whole number. -/
  | int (n : Int)
  /-- A number. -/
  | real (x : α)
  /-- A text. -/
  | text (s : String)
  /-- A list. -/
  | list (items : List (Value α))
  /-- A tuple. -/
  | tuple (items : List (Value α))
  /-- A mapping from texts, in order. -/
  | mapping (fields : List (String × Value α))
  /-- An array of numbers. -/
  | array (entries : Tensor α)
  /-- An array of whole numbers. -/
  | intArray (entries : Tensor Int)
  /-- A record with its name and its fields in order of declaration. -/
  | record (kind : RecordKind) (name : String) (fields : List (String × Value α))
  deriving Inhabited

namespace Value

variable {α : Type}

/-- A value seen as a mapping: a mapping or a record is its fields, anything else the only field of
a mapping. -/
def fields : Value α → List (String × Value α)
  | mapping fs => fs
  | record _ _ fs => fs
  | v => [("value", v)]

end Value

end GibbsNewton
