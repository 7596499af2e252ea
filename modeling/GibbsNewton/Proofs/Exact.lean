import GibbsNewton.Scalar
import Mathlib.Analysis.SpecialFunctions.Log.Basic
import Mathlib.Analysis.SpecialFunctions.Sqrt

/-!
# Exact arithmetic

The scalar that the theory of the library is about: a real number, or one extra value for every
result that is not finite.  An operation on real operands has the real result, except that a
division by zero, the logarithm of a number that is not positive and the square root of a negative
number give the extra value, and so does every operation with the extra value among its operands.
The extra value is neither below, above nor equal to anything.

Two kinds of lemmas come with it.  The *evaluation* lemmas, tagged for `simp`, turn an operation on
coerced reals into the coerced real result.  The *finiteness* lemmas say that a result is finite
exactly when its operands are and the operation is defined, so that a finite result can be traced
back to real operands.

## Main definitions

* `Exact` — real numbers and the value `Exact.undefined`; an instance of `Scalar`.
* `Exact.toReal` — the real number, zero for the extra value.

## Main results

* `Exact.isFinite_iff` — the finite values are the coerced reals.
* `Exact.isFinite_add`, `Exact.isFinite_div`, … — when a result is finite.
-/

namespace GibbsNewton

/-- A real number, or the one value that stands for all results that are not finite. -/
inductive Exact
  /-- A real number. -/
  | real (r : ℝ)
  /-- A result that is not finite. -/
  | undefined

namespace Exact

instance instCoeReal : Coe ℝ Exact := ⟨real⟩

instance instInhabited : Inhabited Exact := ⟨undefined⟩

/-- An operation on reals, carried over to exact values. -/
def lift (f : ℝ → Exact) : Exact → Exact
  | real a => f a
  | undefined => undefined

/-- An operation on two reals, carried over to exact values. -/
def lift₂ (f : ℝ → ℝ → Exact) : Exact → Exact → Exact
  | real a, real b => f a b
  | _, _ => undefined

/-- A relation between reals, carried over to exact values; it never holds of the extra value. -/
def test (p : ℝ → ℝ → Bool) : Exact → Exact → Bool
  | real a, real b => p a b
  | _, _ => false

/-- Whether a value is a real number. -/
def isReal : Exact → Bool
  | real _ => true
  | undefined => false

noncomputable instance instScalarExact : Scalar Exact where
  add := lift₂ fun a b => real (a + b)
  sub := lift₂ fun a b => real (a - b)
  mul := lift₂ fun a b => real (a * b)
  div := lift₂ fun a b => if b = 0 then undefined else real (a / b)
  neg := lift fun a => real (-a)
  beq := test fun a b => decide (a = b)
  ofNat n := real n
  decimal m e := real (m / 10 ^ e)
  lt := test fun a b => decide (a < b)
  isFinite := isReal
  log := lift fun a => if 0 < a then real (Real.log a) else undefined
  sqrt := lift fun a => if 0 ≤ a then real (Real.sqrt a) else undefined

/-- The real number that a value is, zero for the extra value. -/
def toReal : Exact → ℝ
  | real r => r
  | undefined => 0

@[simp] theorem toReal_coe (r : ℝ) : (r : Exact).toReal = r := rfl

@[simp] theorem coe_inj {a b : ℝ} : (a : Exact) = b ↔ a = b :=
  ⟨fun h => by injection h, fun h => h ▸ rfl⟩

@[simp] theorem coe_ne_undefined (a : ℝ) : (a : Exact) ≠ undefined := nofun

/-! ### Evaluation -/

@[simp] theorem add_coe (a b : ℝ) : (a : Exact) + (b : Exact) = ((a + b : ℝ) : Exact) := rfl

@[simp] theorem sub_coe (a b : ℝ) : (a : Exact) - (b : Exact) = ((a - b : ℝ) : Exact) := rfl

@[simp] theorem mul_coe (a b : ℝ) : (a : Exact) * (b : Exact) = ((a * b : ℝ) : Exact) := rfl

@[simp] theorem neg_coe (a : ℝ) : -(a : Exact) = ((-a : ℝ) : Exact) := rfl

theorem div_coe (a : ℝ) {b : ℝ} (hb : b ≠ 0) :
    (a : Exact) / (b : Exact) = ((a / b : ℝ) : Exact) :=
  if_neg hb

theorem div_zero_coe (a : ℝ) : (a : Exact) / ((0 : ℝ) : Exact) = undefined := if_pos rfl

@[simp] theorem zero_eq : (0 : Exact) = ((0 : ℝ) : Exact) := congrArg real Nat.cast_zero

@[simp] theorem one_eq : (1 : Exact) = ((1 : ℝ) : Exact) := congrArg real Nat.cast_one

/-- A larger numeral is one of the reals too. -/
theorem ofNat_eq (k : ℕ) [k.AtLeastTwo] :
    (OfNat.ofNat k : Exact) = ((OfNat.ofNat k : ℝ) : Exact) :=
  congrArg real Nat.cast_ofNat

@[simp] theorem beq_coe (a b : ℝ) : ((a : Exact) == (b : Exact)) = decide (a = b) := rfl

@[simp] theorem lt_coe (a b : ℝ) : Scalar.lt (a : Exact) (b : Exact) = decide (a < b) := rfl

@[simp] theorem isFinite_coe (a : ℝ) : Scalar.isFinite (a : Exact) = true := rfl

@[simp] theorem isFinite_undefined : Scalar.isFinite undefined = false := rfl

theorem log_coe {a : ℝ} (ha : 0 < a) :
    Scalar.log (a : Exact) = ((Real.log a : ℝ) : Exact) :=
  if_pos ha

theorem sqrt_coe {a : ℝ} (ha : 0 ≤ a) :
    Scalar.sqrt (a : Exact) = ((Real.sqrt a : ℝ) : Exact) :=
  if_pos ha

@[simp] theorem abs_coe (a : ℝ) : Scalar.abs (a : Exact) = ((|a| : ℝ) : Exact) := by
  by_cases h : a < 0
  · simp [Scalar.abs, h, abs_of_neg h]
  · simp [Scalar.abs, h, abs_of_nonneg (not_lt.mp h)]

@[simp] theorem maximum_coe (a b : ℝ) :
    Scalar.maximum (a : Exact) (b : Exact) = ((max a b : ℝ) : Exact) := by
  rcases lt_or_ge a b with h | h
  · simp [Scalar.maximum, h, max_eq_right h.le]
  · by_cases h0 : a = 0 ∧ b = 0
    · simp [Scalar.maximum, h0.1, h0.2]
    · simp [Scalar.maximum, h, h0, not_lt.mpr h]

@[simp] theorem minimum_coe (a b : ℝ) :
    Scalar.minimum (a : Exact) (b : Exact) = ((min a b : ℝ) : Exact) := by
  rcases lt_or_ge b a with h | h
  · simp [Scalar.minimum, h, min_eq_right h.le]
  · simp [Scalar.minimum, h, not_lt.mpr h]

@[simp] theorem firstMax_coe (a b : ℝ) :
    Scalar.firstMax (a : Exact) (b : Exact) = ((max a b : ℝ) : Exact) := by
  rcases lt_or_ge a b with h | h
  · simp [Scalar.firstMax, h, max_eq_right h.le]
  · simp [Scalar.firstMax, h, not_lt.mpr h]

@[simp] theorem firstMin_coe (a b : ℝ) :
    Scalar.firstMin (a : Exact) (b : Exact) = ((min a b : ℝ) : Exact) := by
  rcases lt_or_ge b a with h | h
  · simp [Scalar.firstMin, h, min_eq_right h.le]
  · simp [Scalar.firstMin, h, not_lt.mpr h]

/-! ### Laws that need no finite operands -/

theorem add_right_comm (a b c : Exact) : a + b + c = a + c + b := by
  cases a <;> cases b <;> cases c <;> try rfl
  simp only [add_coe, coe_inj]
  ring

theorem add_zero (a : Exact) : a + ((0 : ℝ) : Exact) = a := by
  cases a with
  | real a => simp
  | undefined => rfl

theorem one_mul (a : Exact) : ((1 : ℝ) : Exact) * a = a := by
  cases a with
  | real a => simp
  | undefined => rfl

theorem div_one (a : Exact) : a / ((1 : ℝ) : Exact) = a := by
  cases a with
  | real a => simp [div_coe a one_ne_zero]
  | undefined => rfl

/-! ### Finiteness -/

/-- The finite values are the reals. -/
theorem isFinite_iff {a : Exact} : Scalar.isFinite a = true ↔ ∃ r : ℝ, a = r := by
  cases a with
  | real r => exact ⟨fun _ => ⟨r, rfl⟩, fun _ => rfl⟩
  | undefined => exact ⟨nofun, fun ⟨r, h⟩ => nomatch h⟩

theorem coe_toReal {a : Exact} (h : Scalar.isFinite a = true) : (a.toReal : Exact) = a := by
  obtain ⟨r, rfl⟩ := isFinite_iff.mp h
  rfl

@[simp] theorem isFinite_add (a b : Exact) :
    Scalar.isFinite (a + b) = (Scalar.isFinite a && Scalar.isFinite b) := by
  cases a <;> cases b <;> rfl

@[simp] theorem isFinite_sub (a b : Exact) :
    Scalar.isFinite (a - b) = (Scalar.isFinite a && Scalar.isFinite b) := by
  cases a <;> cases b <;> rfl

@[simp] theorem isFinite_mul (a b : Exact) :
    Scalar.isFinite (a * b) = (Scalar.isFinite a && Scalar.isFinite b) := by
  cases a <;> cases b <;> rfl

@[simp] theorem isFinite_neg (a : Exact) : Scalar.isFinite (-a) = Scalar.isFinite a := by
  cases a <;> rfl

@[simp] theorem isFinite_div (a b : Exact) :
    Scalar.isFinite (a / b) = (Scalar.isFinite a && Scalar.isFinite b && !(b == 0)) := by
  cases a with
  | undefined => cases b <;> rfl
  | real a =>
    cases b with
    | undefined => rfl
    | real b =>
      by_cases hb : b = 0
      · subst hb
        rw [div_zero_coe]
        simp
      · rw [div_coe a hb]
        simp [hb]

@[simp] theorem isFinite_abs (a : Exact) : Scalar.isFinite (Scalar.abs a) = Scalar.isFinite a := by
  cases a with
  | real a => simp
  | undefined => rfl

@[simp] theorem isFinite_maximum (a b : Exact) :
    Scalar.isFinite (Scalar.maximum a b) = (Scalar.isFinite a && Scalar.isFinite b) := by
  cases a with
  | undefined => cases b <;> rfl
  | real a =>
    cases b with
    | undefined => simp [Scalar.maximum, show (undefined == undefined) = false from rfl]
    | real b => simp

/-- What lies below something is a real number. -/
theorem isFinite_of_lt_left {a b : Exact} (h : Scalar.lt a b = true) :
    Scalar.isFinite a = true := by
  cases a with
  | real a => rfl
  | undefined => exact absurd h (by cases b <;> exact nofun)

/-- What lies above something is a real number. -/
theorem isFinite_of_lt_right {a b : Exact} (h : Scalar.lt a b = true) :
    Scalar.isFinite b = true := by
  cases b with
  | real b => rfl
  | undefined => exact absurd h (by cases a <;> exact nofun)

/-! ### Order -/

/-- The order of the reals. -/
instance instLT : LT Exact := ⟨fun a b => Scalar.lt a b = true⟩

/-- The order of the reals; the extra value is not below itself either. -/
instance instLE : LE Exact := ⟨fun a b => ∃ r s : ℝ, a = r ∧ b = s ∧ r ≤ s⟩

theorem lt_def {a b : Exact} : a < b ↔ Scalar.lt a b = true := Iff.rfl

@[simp] theorem coe_lt_coe {a b : ℝ} : (a : Exact) < (b : Exact) ↔ a < b := by
  rw [lt_def, lt_coe, decide_eq_true_eq]

@[simp] theorem coe_le_coe {a b : ℝ} : (a : Exact) ≤ (b : Exact) ↔ a ≤ b := by
  constructor
  · rintro ⟨r, s, hr, hs, h⟩
    rwa [coe_inj.mp hr, coe_inj.mp hs]
  · exact fun h => ⟨a, b, rfl, rfl, h⟩

/-- The values above zero are the positive reals. -/
theorem zero_lt_iff {a : Exact} : 0 < a ↔ ∃ r : ℝ, a = r ∧ 0 < r := by
  constructor
  · intro h
    obtain ⟨r, rfl⟩ := isFinite_iff.mp (isFinite_of_lt_right h)
    exact ⟨r, rfl, by simpa using h⟩
  · rintro ⟨r, rfl, h⟩
    simpa using h

end Exact

end GibbsNewton
