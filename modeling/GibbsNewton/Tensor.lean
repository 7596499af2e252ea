import GibbsNewton.Json.Basic
import GibbsNewton.Decimal.Read

/-!
# Arrays of any dimension

An array is a list of sizes, one a dimension, and its entries with the last index running fastest.
The array of a nested list has the list's length as its first size, and every item must be an array
of one and the same shape.

## Main definitions

* `Tensor` — an array.
* `Tensor.nest` — an array folded up along its dimensions, as into nested lists.
* `Tensor.ofJson` — the array of a nested list of numbers.
* `TensorError` — why a value is no array.
-/

namespace GibbsNewton

/-- An array with entries in `β`. -/
structure Tensor (β : Type) where
  /-- The size of each dimension. -/
  shape : List Nat
  /-- The entries, the last index running fastest. -/
  entries : List β
  deriving Inhabited, Repr, DecidableEq

/-- Why a value is no array of numbers. -/
inductive TensorError
  /-- Something is missing: a null, or a text that is no number. -/
  | notANumber
  /-- The items of some list differ in shape. -/
  | ragged
  /-- A mapping stands where a number or a list is expected. -/
  | mapping
  deriving DecidableEq, Repr

namespace Tensor

variable {β γ : Type}

/-- A list cut into `count` pieces of `size` items. -/
def pieces (size : Nat) : Nat → List β → List (List β)
  | 0, _ => []
  | count + 1, xs => xs.take size :: pieces size count (xs.drop size)

@[simp] theorem length_pieces (size count : Nat) (xs : List β) :
    (pieces size count xs).length = count := by
  induction count generalizing xs with
  | zero => rfl
  | succ count ih => rw [pieces, List.length_cons, ih]

/-- An array folded up along its dimensions. -/
def nest (leaf : β → γ) (node : List γ → γ) : List Nat → List β → γ
  | [], xs => (xs.head?.map leaf).getD (node [])
  | count :: dims, xs => node ((pieces dims.prod count xs).map (nest leaf node dims))

/-- The one-dimensional array of a list. -/
def ofList (xs : List β) : Tensor β := ⟨[xs.length], xs⟩

/-- The array whose items along a new first dimension are given, if they have one shape. -/
def stack? (items : List (Tensor β)) : Option (Tensor β) :=
  match items with
  | [] => some ⟨[0], []⟩
  | first :: rest =>
    if rest.all (·.shape == first.shape) then
      some ⟨items.length :: first.shape, items.flatMap (·.entries)⟩
    else none

/-- The rows of a two-dimensional array. -/
def rows (t : Tensor β) : List (List β) :=
  match t.shape with
  | [m, n] => pieces n m t.entries
  | _ => []

/-- The shape between parentheses; one dimension alone keeps its comma. -/
def shapeText (shape : List Nat) : String :=
  match shape with
  | [n] => "(" ++ toString n ++ ",)"
  | _ => "(" ++ ", ".intercalate (shape.map toString) ++ ")"

/-- Whether every entry of an array of doubles is finite. -/
def isFinite (t : Tensor Float) : Bool := t.entries.all Float.isFinite

/-! ### From nested lists -/

/-- A nested list with anything at its leaves, as an array of those leaves. -/
inductive Leaf
  /-- A number. -/
  | number (x : Float)
  /-- A mapping, which is no number. -/
  | mapping

/-- Whether a leaf is a null or a text that is no number. -/
def isGap : Json → Bool
  | .null => true
  | .text s => (Decimal.read? s).isNone
  | _ => false

mutual

/-- The array of a nested list, whatever its leaves; nothing when it is ragged. -/
def leaves? : Json → Option (Tensor Leaf)
  | .null => some ⟨[], [.mapping]⟩
  | .bool b => some ⟨[], [.number (if b then 1 else 0)]⟩
  | .int n => some ⟨[], [.number (Decimal.ofInt n)]⟩
  | .real x => some ⟨[], [.number x]⟩
  | .text s => some ⟨[], [.number ((Decimal.read? s).getD 0)]⟩
  | .list items => (leavesItems? items).bind stack?
  | .object _ => some ⟨[], [.mapping]⟩

/-- The arrays of the items of a list. -/
def leavesItems? : List Json → Option (List (Tensor Leaf))
  | [] => some []
  | item :: items => do
    let first ← leaves? item
    let rest ← leavesItems? items
    some (first :: rest)

end

/-- The array of a nested list of numbers, truth values counting as one and zero.  Gaps are noticed
before raggedness, and mappings last. -/
def ofJson (j : Json) : Except TensorError (Tensor Float) := do
  if j.anyLeaf isGap then throw .notANumber
  let some t := leaves? j | throw .ragged
  let entries ← t.entries.mapM fun
    | .number x => pure x
    | .mapping => throw .mapping
  return ⟨t.shape, entries⟩

end Tensor

end GibbsNewton
