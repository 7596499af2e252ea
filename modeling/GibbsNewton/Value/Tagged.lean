import GibbsNewton.Value.Text
import GibbsNewton.Fields

/-!
# Values in JSON

A notation of values as JSON.  Nothing, truth values, whole numbers, texts and lists stand for
themselves, and every other value is an object with a single field whose key says what it is:

* `f` a number, given by its text;
* `t` a tuple, `d` a mapping, given by a list of pairs;
* `a` and `na` an array of numbers, `ai` an array of whole numbers, given by nested lists.

On the way back tuples, arrays and records are written as plain lists.

## Main definitions

* `Value.ofTagged`, `Value.toTagged` — reading and writing the notation.
* `Value.ofJson` — a JSON value as a value.
-/

namespace GibbsNewton.Value

/-- Why a JSON value stands for no value. -/
inductive TagError
  /-- A number or an array is none. -/
  | array (e : TensorError)
  /-- An object is none of the forms. -/
  | form
  deriving DecidableEq, Repr

/-! ### Reading -/

mutual

/-- The leaves of a nested list of whole numbers. -/
def wholeLeaves : Json → Except TagError (List Int)
  | .int n => .ok [n]
  | .bool b => .ok [if b then 1 else 0]
  | .list items => wholeLeavesItems items
  | _ => .error .form

/-- The leaves of the items of a list. -/
def wholeLeavesItems : List Json → Except TagError (List Int)
  | [] => .ok []
  | item :: items => do return (← wholeLeaves item) ++ (← wholeLeavesItems items)

end

/-- An array of numbers. -/
def tensorOf (j : Json) : Except TagError (Tensor Float) := (Tensor.ofJson j).mapError .array

/-- A number given by its text. -/
def numberOf : Json → Except TagError Float
  | .text s =>
    match Decimal.read? s with
    | some x => .ok x
    | Option.none => .error (.array .notANumber)
  | _ => .error .form

mutual

/-- The value that a JSON value stands for. -/
def ofTagged : Json → Except TagError (Value Float)
  | .null => .ok none
  | .bool b => .ok (bool b)
  | .int n => .ok (int n)
  | .real x => .ok (real x)
  | .text s => .ok (text s)
  | .list items => list <$> ofTaggedItems items
  | .object [("f", x)] => real <$> numberOf x
  | .object [("t", .list items)] => tuple <$> ofTaggedItems items
  | .object [("d", .list pairs)] => (fun fs => mapping (Fields.ofPairs fs)) <$> ofTaggedPairs pairs
  | .object [("a", x)] => array <$> tensorOf x
  | .object [("na", x)] => array <$> tensorOf x
  | .object [("ai", x)] => do
    return intArray { shape := (← tensorOf x).shape, entries := ← wholeLeaves x }
  | .object _ => .error .form

/-- The values that the items of a list stand for. -/
def ofTaggedItems : List Json → Except TagError (List (Value Float))
  | [] => .ok []
  | item :: items => do return (← ofTagged item) :: (← ofTaggedItems items)

/-- The fields that pairs of a key and a value stand for. -/
def ofTaggedPairs : List Json → Except TagError (List (String × Value Float))
  | [] => .ok []
  | .list [.text key, value] :: pairs => do
    return (key, ← ofTagged value) :: (← ofTaggedPairs pairs)
  | _ :: _ => .error .form

end

mutual

/-- A JSON value as a value. -/
def ofJson : Json → Value Float
  | .null => none
  | .bool b => bool b
  | .int n => int n
  | .real x => real x
  | .text s => text s
  | .list items => list (ofJsonItems items)
  | .object fields => mapping (ofJsonFields fields)

/-- The items of a list as values. -/
def ofJsonItems : List Json → List (Value Float)
  | [] => []
  | item :: items => ofJson item :: ofJsonItems items

/-- The fields of an object as fields of a value. -/
def ofJsonFields : List (String × Json) → List (String × Value Float)
  | [] => []
  | (key, value) :: fields => (key, ofJson value) :: ofJsonFields fields

end

/-! ### Writing -/

/-- A number as an object with its shortest text. -/
def taggedNumber (x : Float) : Json := .object [("f", .text (Decimal.shortest x))]

mutual

/-- A value in the notation. -/
def toTagged : Value Float → Json
  | none => .null
  | bool b => .bool b
  | int n => .int n
  | real x => taggedNumber x
  | text s => .text s
  | list items => .list (toTaggedItems items)
  | tuple items => .list (toTaggedItems items)
  | mapping fields => .object [("d", .list (toTaggedPairs fields))]
  | array t => Tensor.nest taggedNumber .list t.shape t.entries
  | intArray t => Tensor.nest .int .list t.shape t.entries
  | record _ _ fields => .list (toTaggedValues fields)

/-- The items of a list in the notation. -/
def toTaggedItems : List (Value Float) → List Json
  | [] => []
  | item :: items => toTagged item :: toTaggedItems items

/-- The fields of a mapping as pairs. -/
def toTaggedPairs : List (String × Value Float) → List Json
  | [] => []
  | (key, value) :: fields => .list [.text key, toTagged value] :: toTaggedPairs fields

/-- The values of the fields of a record. -/
def toTaggedValues : List (String × Value Float) → List Json
  | [] => []
  | (_, value) :: fields => toTagged value :: toTaggedValues fields

end

end GibbsNewton.Value
