/-!
# JSON values

JSON as data.  A number without point and exponent is a whole number of any size, every other
number a double.  Objects keep the order of their keys.

## Main definitions

* `Json` — the values.
* `Json.field?` — the value of a key.
* `Json.anyLeaf` — whether a test holds of some value that is neither a list nor an object.
-/

namespace GibbsNewton

/-- A JSON value. -/
inductive Json
  /-- The null value. -/
  | null
  /-- A truth value. -/
  | bool (b : Bool)
  /-- A whole number. -/
  | int (n : Int)
  /-- A number with a point or an exponent, or one of the values that are not finite. -/
  | real (x : Float)
  /-- A text. -/
  | text (s : String)
  /-- A list. -/
  | list (items : List Json)
  /-- An object, with its fields in order. -/
  | object (fields : List (String × Json))
  deriving Inhabited

namespace Json

/-- The value of a key, if the value is an object that has it. -/
def field? (key : String) : Json → Option Json
  | object fields => fields.lookup key
  | _ => none

mutual

/-- Whether a test holds of some value inside that is neither a list nor an object. -/
def anyLeaf (p : Json → Bool) : Json → Bool
  | list items => anyLeafItems p items
  | object fields => anyLeafFields p fields
  | leaf => p leaf

/-- Whether a test holds of some leaf of some item. -/
def anyLeafItems (p : Json → Bool) : List Json → Bool
  | [] => false
  | item :: items => anyLeaf p item || anyLeafItems p items

/-- Whether a test holds of some leaf of some field. -/
def anyLeafFields (p : Json → Bool) : List (String × Json) → Bool
  | [] => false
  | (_, value) :: fields => anyLeaf p value || anyLeafFields p fields

end

end Json

end GibbsNewton
