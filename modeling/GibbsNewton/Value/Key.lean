import GibbsNewton.Value.Basic
import GibbsNewton.Decimal.Binary64
import GibbsNewton.Scalar

/-!
# Telling values apart

Two values are the same when they would be called equal: numbers by their exact value whatever
their form, truth values counting as one and zero, lists and tuples item by item, and mappings by
their fields in any order.  A value that is not a number equals nothing, not even itself.

As arguments of a function, arrays are told apart more finely: by their shape, by the text of the type
of their entries and by the bytes in which these are stored.  Which types there are, and which texts they
have, is left open; two types may well have one text, and then there are two arrays with one key.

## Main definitions

* `ExactNumber` — a whole number or a double, compared by value.
* `Value.same` — equality of values.
* `StoredArray` — arrays of any type as they are stored, with `StoredArray.key`.
* `EntryType`, `Tensor.stored`, `Tensor.storedInts` — the arrays of values as they are stored.
* `ArgumentKey`, `Value.key` — what tells arguments apart.
-/

namespace GibbsNewton

/-- A number in one of its two forms. -/
inductive ExactNumber
  /-- A whole number. -/
  | int (n : Int)
  /-- A double. -/
  | real (x : Float)

namespace ExactNumber

/-- Whether a double has the value of a whole number. -/
def isInt (x : Float) (n : Int) : Bool :=
  match Binary64.ofFloat x with
  | .finite negative mantissa exponent =>
    let (numerator, denominator) := Binary64.quotient mantissa exponent
    let signed : Int := if negative then -(numerator : Int) else numerator
    signed == n * (denominator : Int)
  | _ => false

/-- Whether two numbers have the same value. -/
def same : ExactNumber → ExactNumber → Bool
  | int n, int k => n == k
  | real x, real y => x == y
  | real x, int n => isInt x n
  | int n, real x => isInt x n

/-- Whether a whole number is less than a double. -/
def intLt (n : Int) (t : Float) : Bool :=
  match Binary64.ofFloat t with
  | .finite negative mantissa exponent =>
    let (numerator, denominator) := Binary64.quotient mantissa exponent
    let signed : Int := if negative then -(numerator : Int) else numerator
    decide (n * (denominator : Int) < signed)
  | .infinite negative => !negative
  | .undefined => false

/-- Whether a number is less than a double, by its exact value. -/
def ltReal : ExactNumber → Float → Bool
  | int n, t => intLt n t
  | real x, t => Scalar.lt x t

/-- The double that a number becomes where all numbers do, if a whole one has no more than sixty-four
bits. -/
def toFloat? : ExactNumber → Option Float
  | int n => if -0x8000000000000000 ≤ n ∧ n < 0x8000000000000000 then some (Decimal.ofInt n) else none
  | real x => some x

end ExactNumber

namespace Value

/-- A value as a number. -/
def number? : Value Float → Option ExactNumber
  | bool b => some (.int (if b then 1 else 0))
  | int n => some (.int n)
  | real x => some (.real x)
  | _ => Option.none

/-- Whether two arrays of doubles agree in shape and bits. -/
def sameBits (s t : Tensor Float) : Bool :=
  s.shape == t.shape && s.entries.map Float.toBits == t.entries.map Float.toBits

mutual

/-- Whether two values are equal. -/
def same : Value Float → Value Float → Bool
  | none, none => true
  | text s, text t => s == t
  | list xs, list ys => sameItems xs ys
  | tuple xs, tuple ys => sameItems xs ys
  | mapping fs, mapping gs => fs.length == gs.length && sameFields fs gs
  | array s, array t => sameBits s t
  | intArray s, intArray t => s == t
  | record kind name fs, record kind' name' gs =>
    kind == kind' && name == name' && fs.length == gs.length && sameFields fs gs
  | v, w =>
    match v.number?, w.number? with
    | some a, some b => a.same b
    | _, _ => false

/-- Whether two lists of values are equal item by item. -/
def sameItems : List (Value Float) → List (Value Float) → Bool
  | [], [] => true
  | x :: xs, y :: ys => same x y && sameItems xs ys
  | _, _ => false

/-- Whether every field is among other fields. -/
def sameFields : List (String × Value Float) → List (String × Value Float) → Bool
  | [], _ => true
  | (key, v) :: fs, gs =>
    (match gs.lookup key with
      | some w => same v w
      | Option.none => false) && sameFields fs gs

end

end Value

/-! ### Arrays as they are stored -/

/-- An array as it is stored, with entries of a type out of `δ`. -/
structure StoredArray (δ : Type) where
  /-- The size of each dimension. -/
  shape : List Nat
  /-- The type of its entries. -/
  type : δ
  /-- The bytes of its entries, the last index running fastest. -/
  bytes : List UInt8
  deriving DecidableEq, Repr

/-- What tells an array apart. -/
structure ArrayKey where
  /-- The size of each dimension. -/
  shape : List Nat
  /-- The text of the type of its entries. -/
  type : String
  /-- The bytes of its entries. -/
  bytes : List UInt8
  deriving DecidableEq, Repr

/-- What tells an array apart, with a text for each type. -/
def StoredArray.key {δ : Type} (text : δ → String) (a : StoredArray δ) : ArrayKey where
  shape := a.shape
  type := text a.type
  bytes := a.bytes

/-- The types of the entries of values. -/
inductive EntryType
  /-- Doubles. -/
  | double
  /-- Whole numbers of eight bytes. -/
  | whole
  deriving DecidableEq, Repr

/-- The text of a type: the order of the bytes, the kind of number and its size. -/
def EntryType.text : EntryType → String
  | double => "<f8"
  | whole => "<i8"

/-- The lowest bytes of a number, the lowest one first. -/
def littleEndian : Nat → Nat → List UInt8
  | 0, _ => []
  | count + 1, n => UInt8.ofNat n :: littleEndian count (n / 256)

/-- An array of doubles as it is stored. -/
def Tensor.stored (t : Tensor Float) : StoredArray EntryType where
  shape := t.shape
  type := .double
  bytes := t.entries.flatMap fun x => littleEndian 8 x.toBits.toNat

/-- An array of whole numbers as it is stored, a negative one by its complement. -/
def Tensor.storedInts (t : Tensor Int) : StoredArray EntryType where
  shape := t.shape
  type := .whole
  bytes := t.entries.flatMap fun i => littleEndian 8 (i % 0x10000000000000000).toNat

/-! ### Arguments -/

/-- What tells an argument apart. -/
inductive ArgumentKey
  /-- An array. -/
  | array (k : ArrayKey)
  /-- Any other value. -/
  | plain (v : Value Float)

/-- Whether two arguments count as the same. -/
def ArgumentKey.same : ArgumentKey → ArgumentKey → Bool
  | array k, array l => k == l
  | plain v, plain w => v.same w
  | _, _ => false

/-- What tells a value apart as an argument. -/
def Value.key : Value Float → ArgumentKey
  | .array t => .array (t.stored.key EntryType.text)
  | .intArray t => .array (t.storedInts.key EntryType.text)
  | v => .plain v

/-- What tells arguments apart that are arrays. -/
def StoredArray.keys {δ : Type} (text : δ → String) (arguments : List (StoredArray δ)) :
    List ArgumentKey :=
  arguments.map fun a => .array (a.key text)

/-- Whether two lists of arguments count as the same. -/
def sameKeys : List ArgumentKey → List ArgumentKey → Bool
  | [], [] => true
  | k :: ks, l :: ls => k.same l && sameKeys ks ls
  | _, _ => false

end GibbsNewton
