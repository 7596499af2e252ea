import GibbsNewton.Scalar

/-!
# Vectors and matrices

Columns of scalars and rectangular tables of them, with their sizes in the type.  A vector is a
function on its indices whose values are stored once they are computed; it is built from an entry
function by `Vec.of`, and `Vec.of_apply` is the only fact about storage that a proof needs.  Sums
run over the indices in order and start from zero.

## Main definitions

* `Vec`, `Mat` — vectors and matrices over a scalar.
* `Vec.of`, `Mat.of` — building them entry by entry.
* `Vec.sum`, `Vec.dot`, `Vec.normInf` — the reductions.
* `Mat.mulVec`, `Mat.transposeMulVec`, `Mat.mul` — the products.
-/

namespace GibbsNewton

/-- A column of `n` entries, stored. -/
structure Vec (α : Type) (n : Nat) where
  /-- The stored entries. -/
  entries : Vector α n

/-- A matrix of `m` rows and `n` columns, stored by rows. -/
abbrev Mat (α : Type) (m n : Nat) := Vec (Vec α n) m

variable {α β : Type} {m n k : Nat}

/-! ### Vectors -/

namespace Vec

/-- An entry. -/
def get (v : Vec α n) (i : Fin n) : α := v.entries[i]

instance instCoeFunVec : CoeFun (Vec α n) (fun _ => Fin n → α) := ⟨get⟩

/-- The vector with the given entries. -/
def of (f : Fin n → α) : Vec α n := ⟨Vector.ofFn f⟩

@[simp] theorem of_apply (f : Fin n → α) (i : Fin n) : of f i = f i := by simp [of, get]

/-- Vectors are equal when their entries are. -/
@[ext] theorem ext {v w : Vec α n} (h : ∀ i, v i = w i) : v = w := by
  obtain ⟨v⟩ := v
  obtain ⟨w⟩ := w
  exact congrArg Vec.mk (Vector.ext fun i hi => h ⟨i, hi⟩)

@[simp] theorem of_get (v : Vec α n) : of (fun i => v i) = v := ext fun i => by simp

/-- The vector with every entry equal to `a`. -/
def const (n : Nat) (a : α) : Vec α n := of fun _ => a

@[simp] theorem const_apply (a : α) (i : Fin n) : const n a i = a := by simp [const]

/-- A function applied to every entry. -/
def map (f : α → β) (v : Vec α n) : Vec β n := of fun i => f (v i)

@[simp] theorem map_apply (f : α → β) (v : Vec α n) (i : Fin n) : v.map f i = f (v i) := by
  simp [map]

/-- The entry `a` in front of the entries of `v`. -/
def cons (a : α) (v : Vec α n) : Vec α (n + 1) := of (Fin.cases a v)

@[simp] theorem cons_zero (a : α) (v : Vec α n) : cons a v 0 = a := by simp [cons]

@[simp] theorem cons_succ (a : α) (v : Vec α n) (i : Fin n) : cons a v i.succ = v i := by
  simp [cons]

/-- The first entry. -/
def head (v : Vec α (n + 1)) : α := v 0

@[simp] theorem head_eq (v : Vec α (n + 1)) : v.head = v 0 := rfl

/-- The entries after the first one. -/
def tail (v : Vec α (n + 1)) : Vec α n := of fun i => v i.succ

@[simp] theorem tail_apply (v : Vec α (n + 1)) (i : Fin n) : v.tail i = v i.succ := by simp [tail]

/-- The index that ends up at place `i` when `0` and `p` change places. -/
def exchanged (p i : Fin (n + 1)) : Fin (n + 1) := if i = 0 then p else if i = p then 0 else i

/-- Entries with those at `0` and `p` exchanged. -/
def exchange (p : Fin (n + 1)) (v : Vec α (n + 1)) : Vec α (n + 1) :=
  of fun i => v (exchanged p i)

@[simp] theorem exchange_apply (p : Fin (n + 1)) (v : Vec α (n + 1)) (i : Fin (n + 1)) :
    v.exchange p i = v (exchanged p i) := by simp [exchange]

/-- Whether a test holds of every entry. -/
def all (p : α → Bool) (v : Vec α n) : Bool := v.entries.all p

theorem all_iff {p : α → Bool} {v : Vec α n} : v.all p = true ↔ ∀ i, p (v i) = true := by
  simp only [all, Vector.all_eq_true, get]
  exact ⟨fun h i => h i i.isLt, fun h i hi => h ⟨i, hi⟩⟩

/-- The entries in order. -/
def toList (v : Vec α n) : List α := v.entries.toList

@[simp] theorem length_toList (v : Vec α n) : v.toList.length = n := Vector.length_toList

theorem toList_inj {v w : Vec α n} : v.toList = w.toList ↔ v = w := by
  obtain ⟨v⟩ := v
  obtain ⟨w⟩ := w
  simp [toList, Vector.toList_inj]

/-- The vector of a list, which is as long as the list. -/
def ofList (xs : List α) : Vec α xs.length := of xs.get

/-- A list read as a vector of the given size, if it has that size. -/
def ofList? (n : Nat) (xs : List α) : Option (Vec α n) :=
  if h : xs.length = n then some (h ▸ ofList xs) else none

variable [Scalar α]

/-- The sum of finitely many scalars, added in index order to zero. -/
def sum (f : Fin n → α) : α := Fin.foldl n (fun s i => s + f i) 0

/-- The scalar product. -/
def dot (v w : Vec α n) : α := sum fun i => v i * w i

/-- Entrywise sum. -/
def add (v w : Vec α n) : Vec α n := of fun i => v i + w i

/-- Entrywise difference. -/
def sub (v w : Vec α n) : Vec α n := of fun i => v i - w i

/-- `v` moved by `t` times `d`. -/
def move (v : Vec α n) (t : α) (d : Vec α n) : Vec α n := of fun i => v i + t * d i

@[simp] theorem add_apply (v w : Vec α n) (i : Fin n) : v.add w i = v i + w i := by simp [add]

@[simp] theorem sub_apply (v w : Vec α n) (i : Fin n) : v.sub w i = v i - w i := by simp [sub]

@[simp] theorem move_apply (v d : Vec α n) (t : α) (i : Fin n) :
    v.move t d i = v i + t * d i := by simp [move]

/-- The largest entry in magnitude, zero for the empty vector.  An entry that is not a number is
passed on. -/
def normInf (v : Vec α n) : α := Fin.foldl n (fun s i => Scalar.maximum s (Scalar.abs (v i))) 0

/-- Whether every entry is finite. -/
def isFinite (v : Vec α n) : Bool := v.all Scalar.isFinite

end Vec

/-! ### Matrices -/

namespace Mat

/-- The matrix with the given entries. -/
def of (f : Fin m → Fin n → α) : Mat α m n := Vec.of fun i => Vec.of (f i)

@[simp] theorem of_apply (f : Fin m → Fin n → α) (i : Fin m) (j : Fin n) : of f i j = f i j := by
  simp [of]

/-- The transposed matrix. -/
def transpose (A : Mat α m n) : Mat α n m := of fun i j => A j i

@[simp] theorem transpose_apply (A : Mat α m n) (i : Fin n) (j : Fin m) :
    A.transpose i j = A j i := by simp [transpose]

/-- The diagonal of a square matrix. -/
def diag (A : Mat α n n) : Vec α n := Vec.of fun i => A i i

@[simp] theorem diag_apply (A : Mat α n n) (i : Fin n) : A.diag i = A i i := by simp [diag]

/-- Rows read as a matrix of the given size, if they have it. -/
def ofRows? (m n : Nat) (rows : List (List α)) : Option (Mat α m n) := do
  let vs ← rows.mapM (Vec.ofList? n)
  Vec.ofList? m vs

variable [Scalar α]

/-- The square matrix with the given diagonal and zeros elsewhere. -/
def diagonal (d : Vec α n) : Mat α n n := of fun i j => if i = j then d i else 0

@[simp] theorem diagonal_apply (d : Vec α n) (i j : Fin n) :
    diagonal d i j = if i = j then d i else 0 := by simp [diagonal]

/-- The identity matrix. -/
def identity (n : Nat) : Mat α n n := diagonal (Vec.const n 1)

/-- Entrywise sum. -/
def add (A B : Mat α m n) : Mat α m n := of fun i j => A i j + B i j

@[simp] theorem add_apply (A B : Mat α m n) (i : Fin m) (j : Fin n) :
    A.add B i j = A i j + B i j := by simp [add]

/-- The product of a matrix and a column. -/
def mulVec (A : Mat α m n) (v : Vec α n) : Vec α m := Vec.of fun i => Vec.dot (A i) v

/-- The product of the transposed matrix and a column. -/
def transposeMulVec (A : Mat α m n) (v : Vec α m) : Vec α n :=
  Vec.of fun j => Vec.sum fun i => A i j * v i

/-- The product of two matrices. -/
def mul (A : Mat α m k) (B : Mat α k n) : Mat α m n :=
  of fun i j => Vec.sum fun l => A i l * B l j

/-- The row with the largest first entry in magnitude, the topmost of several. -/
def pivotRow (A : Mat α (n + 1) (n + 1)) : Fin (n + 1) :=
  Fin.foldl (n + 1) (fun (best : Fin (n + 1)) i =>
    if Scalar.lt (Scalar.abs (A best).head) (Scalar.abs (A i).head) then i else best) 0

/-- Whether every entry is finite. -/
def isFinite (A : Mat α m n) : Bool := A.all Vec.isFinite

end Mat

end GibbsNewton
