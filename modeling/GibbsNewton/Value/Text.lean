import GibbsNewton.Value.Basic
import GibbsNewton.Decimal.Text
import GibbsNewton.Text.Quoted

/-!
# The text of a value

A text stands for itself; every other value is shown as it would be inside a list, where texts are
quoted, numbers take their shortest form, and a tuple of one item keeps its comma.

## Main definitions

* `Value.shown` — a value inside another one.
* `Value.plain` — a value on its own.
-/

namespace GibbsNewton.Value

/-- Pieces between two brackets, parted by commas. -/
def enclose (opening closing : String) (pieces : List String) : String :=
  opening ++ ", ".intercalate pieces ++ closing

mutual

/-- A value as it is shown inside another one. -/
def shown : Value Float → String
  | none => "None"
  | bool b => if b then "True" else "False"
  | int n => toString n
  | real x => Decimal.shortest x
  | text s => Quoted.quote s
  | list items => enclose "[" "]" (shownItems items)
  | tuple items =>
    match items with
    | [item] => "(" ++ shown item ++ ",)"
    | items => enclose "(" ")" (shownItems items)
  | mapping fields => enclose "\x7b" "\x7d" (shownFields fields)
  | array t => Tensor.nest Decimal.shortest (enclose "[" "]") t.shape t.entries
  | intArray t => Tensor.nest toString (enclose "[" "]") t.shape t.entries
  | record _ name fields => name ++ enclose "(" ")" (shownArguments fields)

/-- The items of a list. -/
def shownItems : List (Value Float) → List String
  | [] => []
  | item :: items => shown item :: shownItems items

/-- The fields of a mapping. -/
def shownFields : List (String × Value Float) → List String
  | [] => []
  | (key, value) :: fields => (Quoted.quote key ++ ": " ++ shown value) :: shownFields fields

/-- The fields of a record. -/
def shownArguments : List (String × Value Float) → List String
  | [] => []
  | (key, value) :: fields => (key ++ "=" ++ shown value) :: shownArguments fields

end

/-- A value on its own. -/
def plain : Value Float → String
  | text s => s
  | v => shown v

end GibbsNewton.Value
