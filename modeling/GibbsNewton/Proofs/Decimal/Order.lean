import GibbsNewton.Value.Key
import Mathlib.Algebra.Order.Field.Power
import Mathlib.Data.EReal.Basic
import Mathlib.Order.Compare

/-!
# The order of numbers

Doubles compare by their values.  The comparison itself looks at signs, exponents and mantissas in this
order, which is right only because a mantissa of a double uses all its bits unless the exponent is the
least there is.  So a double and a whole number, which are compared by value, fit into one order: numbers
that are the same are less than the same doubles.

## Main definitions

* `Binary64.value?`, `ExactNumber.value?` — the value of a number, if it is one.
* `Binary64.Legal` — the mantissas and exponents that occur.
* `ExactNumber.IsDouble` — the numbers that are doubles, as they are handed on.

## Main results

* `Binary64.compare_eq_cmp` — **doubles compare by their values.**
* `ExactNumber.same_iff`, `ExactNumber.ltReal_iff` — numbers are the same, or less, if their values are.
* `ExactNumber.ltReal_eq_of_same` — numbers that are the same are less than the same doubles.
-/

namespace GibbsNewton

open Float.Model Float.Model.UnpackedFloat

namespace Binary64

/-! ### Taking a double apart -/

/-- Whether a sign is negative. -/
def isNegative : Sign → Bool
  | .negative => true
  | .positive => false

/-- An unpacked double in these terms; a zero has the least exponent. -/
def ofUnpacked : UnpackedFloat → Binary64
  | .notANumber => .undefined
  | .infinity s => .infinite (isNegative s)
  | .zero s => .finite (isNegative s) 0 (-1074)
  | .finite s m e _ => .finite (isNegative s) m e

section

variable (b : BitVec Format.binary64.numBits)

theorem toNat_unpackMantissa : (unpackMantissa b).toNat = b.toNat % 2 ^ 52 :=
  BitVec.extractLsb_toNat 51 0 b

theorem toNat_unpackExponent : (unpackExponent b).toNat = (b.toNat >>> 52) % 2 ^ 11 :=
  BitVec.extractLsb_toNat 62 52 b

theorem toNat_unpackSign : (unpackSign b).toNat = b.toNat >>> 63 := by
  have hlt : b.toNat < 2 ^ 64 := b.isLt
  have hbit : (unpackSign b).toNat = (b.toNat >>> 63) % 2 ^ 1 := BitVec.extractLsb_toNat 63 63 b
  rw [hbit, Nat.shiftRight_eq_div_pow]
  omega

end

theorem isNegative_ofBitVec (b : BitVec 1) : isNegative (Sign.ofBitVec b) = (b.toNat == 1) := by
  revert b
  decide

theorem toNat_one_append (m : BitVec 52) : (1#1 ++ m).toNat = hidden + m.toNat := by
  rw [BitVec.toNat_append, ← Nat.shiftLeft_add_eq_or_of_lt m.isLt]
  rfl

/-- The two ways to take a double apart agree. -/
theorem ofFloat_eq (x : Float) : ofFloat x = ofUnpacked x.toModel.unpack := by
  let b : BitVec Format.binary64.numBits := x.toModel.toBits.toBitVec
  have hbits : x.toBits.toNat = b.toNat := rfl
  have hsign : (b.toNat >>> 63 == 1) = isNegative (Sign.ofBitVec (unpackSign b)) := by
    rw [isNegative_ofBitVec, toNat_unpackSign]
  have hfraction : b.toNat % hidden = (unpackMantissa b).toNat := (toNat_unpackMantissa b).symm
  have hfield : (b.toNat >>> 52) % 0x800 = (unpackExponent b).toNat := (toNat_unpackExponent b).symm
  have hones : (unpackExponent b).toNat = 2047 ↔ unpackExponent b = -1#11 := by
    rw [← BitVec.toNat_inj]
    rfl
  have hnone : (unpackExponent b).toNat = 0 ↔ unpackExponent b = 0#11 := by
    rw [← BitVec.toNat_inj]
    rfl
  have hleft : ofFloat x =
      if unpackExponent b = -1#11 then
        if (unpackMantissa b).toNat = 0 then .infinite (isNegative (Sign.ofBitVec (unpackSign b)))
        else .undefined
      else if unpackExponent b = 0#11 then
        .finite (isNegative (Sign.ofBitVec (unpackSign b))) (unpackMantissa b).toNat (-1074)
      else
        .finite (isNegative (Sign.ofBitVec (unpackSign b))) (hidden + (unpackMantissa b).toNat)
          ((unpackExponent b).toNat - 1075) := by
    unfold ofFloat
    simp only [hbits, hsign, hfraction, hfield, hones, hnone]
  have hright : x.toModel.unpack = UnpackedFloat.unpack Format.binary64 b := rfl
  rw [hleft, hright]
  by_cases hspecial : unpackExponent b = -1#11
  · rw [if_pos hspecial]
    by_cases hzero : unpackMantissa b = 0#52
    · have hunpack : UnpackedFloat.unpack Format.binary64 b =
          .infinity (Sign.ofBitVec (unpackSign b)) := (if_pos hspecial).trans (if_pos hzero)
      have hnat : (unpackMantissa b).toNat = 0 := congrArg BitVec.toNat hzero
      rw [hunpack, if_pos hnat]
      rfl
    · have hunpack : UnpackedFloat.unpack Format.binary64 b = .notANumber :=
        (if_pos hspecial).trans (if_neg hzero)
      have hnat : (unpackMantissa b).toNat ≠ 0 := fun h => hzero (BitVec.eq_of_toNat_eq h)
      rw [hunpack, if_neg hnat]
      rfl
  · rw [if_neg hspecial]
    by_cases hleast : unpackExponent b = 0#11
    · rw [if_pos hleast]
      by_cases hzero : unpackMantissa b = 0#52
      · have hunpack : UnpackedFloat.unpack Format.binary64 b =
            .zero (Sign.ofBitVec (unpackSign b)) :=
          (if_neg hspecial).trans ((if_pos hleast).trans (dif_pos hzero))
        rw [hunpack, hzero]
        rfl
      · obtain ⟨hpos, hunpack⟩ : ∃ h, UnpackedFloat.unpack Format.binary64 b =
            .finite (Sign.ofBitVec (unpackSign b)) (unpackMantissa b).toNat
              ((unpackExponent b).toNat - 1075 + 1) h :=
          ⟨_, (if_neg hspecial).trans ((if_pos hleast).trans (dif_neg hzero))⟩
        have hexponent : ((unpackExponent b).toNat : ℤ) - 1075 + 1 = -1074 := by
          rw [hleast]
          rfl
        rw [hunpack, hexponent]
        rfl
    · obtain ⟨hpos, hunpack⟩ : ∃ h, UnpackedFloat.unpack Format.binary64 b =
          .finite (Sign.ofBitVec (unpackSign b)) (1#1 ++ unpackMantissa b).toNat
            ((unpackExponent b).toNat - 1075) h :=
        ⟨_, (if_neg hspecial).trans (if_neg hleast)⟩
      rw [hunpack, if_neg hleast, ← toNat_one_append]
      rfl

/-! ### Values -/

/-- A mantissa and an exponent that occur: all bits of the mantissa are in use, or the exponent is the
least. -/
structure Legal (m : ℕ) (e : ℤ) : Prop where
  /-- The mantissa has no more than fifty-three bits. -/
  bound : m < 2 * hidden
  /-- The exponent is not below the least. -/
  least : -1074 ≤ e
  /-- The mantissa has all of them, unless the exponent is the least. -/
  full : e ≠ -1074 → hidden ≤ m

theorem legal_of_ofFloat {x : Float} {negative : Bool} {m : ℕ} {e : ℤ}
    (h : ofFloat x = .finite negative m e) : Legal m e := by
  have hfraction : x.toBits.toNat % hidden < hidden := Nat.mod_lt _ (by decide)
  unfold ofFloat at h
  dsimp only at h
  split at h
  next =>
    split at h
    · cases h
    · cases h
  next =>
    split at h
    next =>
      cases h
      refine { bound := by omega, least := le_refl _, full := fun hne => absurd rfl hne }
    next hleast =>
      cases h
      refine { bound := by omega, least := by omega, full := fun _ => by omega }

/-- Legal magnitudes compare by exponents and then by mantissas. -/
theorem cmp_magnitude {m m' : ℕ} {e e' : ℤ} (h : Legal m e) (h' : Legal m' e') :
    cmp ((m : ℝ) * 2 ^ e) (m' * 2 ^ e') = (compare e e').then (compare m m') := by
  have hbelow : ∀ {m m' : ℕ} {e e' : ℤ}, Legal m e → Legal m' e' → e < e' →
      (m : ℝ) * 2 ^ e < m' * 2 ^ e' := by
    intro m m' e e' h h' he
    have hm : (m : ℝ) < 2 * hidden := by exact_mod_cast h.bound
    have hm' : (hidden : ℝ) ≤ m' := by exact_mod_cast h'.full (by have := h.least; omega)
    calc (m : ℝ) * 2 ^ e < 2 * hidden * 2 ^ e := by gcongr
      _ = hidden * 2 ^ (e + 1) := by rw [zpow_add_one₀ two_ne_zero]; ring
      _ ≤ hidden * 2 ^ e' := by gcongr; exacts [one_le_two, he]
      _ ≤ m' * 2 ^ e' := by gcongr
  rcases lt_trichotomy e e' with he | rfl | he
  · rw [(cmp_eq_lt_iff _ _).mpr (hbelow h h' he), Int.compare_eq_lt.mpr he]
    rfl
  · have hpos : (0 : ℝ) < 2 ^ e := by positivity
    have hmono : StrictMono fun k : ℕ => (k : ℝ) * 2 ^ e := fun i j hij => by dsimp only; gcongr
    rw [Int.compare_eq_eq.mpr rfl, Ordering.eq_then, ← cmp_eq_compare]
    exact hmono.cmp_map_eq m m'
  · rw [(cmp_eq_gt_iff _ _).mpr (hbelow h' h he), Int.compare_eq_gt.mpr he]
    rfl

/-- The value of a finite double. -/
noncomputable def realOf (negative : Bool) (m : ℕ) (e : ℤ) : ℝ :=
  if negative then -((m : ℝ) * ((2 : ℕ) : ℝ) ^ e) else m * ((2 : ℕ) : ℝ) ^ e

/-- The value of an infinity. -/
noncomputable def infinityOf (negative : Bool) : EReal := if negative then ⊥ else ⊤

/-- The value of a double, if it is a number. -/
noncomputable def value? : Binary64 → Option EReal
  | .finite negative m e => some (realOf negative m e : ℝ)
  | .infinite negative => some (infinityOf negative)
  | .undefined => none

theorem realOf_zero (negative : Bool) (e : ℤ) : realOf negative 0 e = 0 := by
  cases negative <;> simp [realOf]

/-- Finite doubles other than zero compare by their values. -/
theorem compare_finite {s s' : Sign} {m m' : ℕ} {e e' : ℤ} (hm : 0 < m) (hm' : 0 < m')
    (h : Legal m e) (h' : Legal m' e') :
    (UnpackedFloat.finite s m e hm).compare (.finite s' m' e' hm') =
      some (cmp (realOf (isNegative s) m e) (realOf (isNegative s') m' e')) := by
  have hpos : (0 : ℝ) < m * 2 ^ e := by positivity
  have hpos' : (0 : ℝ) < m' * 2 ^ e' := by positivity
  cases s with
  | negative =>
    cases s' with
    | negative =>
      have hneg : StrictAnti fun r : ℝ => -r := fun _ _ => neg_lt_neg
      change some ((compare e e').then (compare m m')).swap =
        some (cmp (-(m * 2 ^ e : ℝ)) (-(m' * 2 ^ e')))
      rw [← cmp_magnitude h h', cmp_swap, hneg.cmp_map_eq]
    | positive =>
      have hlt : -((m : ℝ) * 2 ^ e) < m' * 2 ^ e' := by linarith
      exact congrArg some ((cmp_eq_lt_iff _ _).mpr hlt).symm
  | positive =>
    cases s' with
    | negative =>
      have hgt : -((m' : ℝ) * 2 ^ e') < m * 2 ^ e := by linarith
      exact congrArg some ((cmp_eq_gt_iff _ _).mpr hgt).symm
    | positive => exact congrArg some (cmp_magnitude h h').symm

theorem cmp_realOf_zero {s : Sign} {m : ℕ} {e : ℤ} (hm : 0 < m) :
    cmp (realOf (isNegative s) m e) 0 = if isNegative s then .lt else .gt := by
  have hpos : (0 : ℝ) < m * 2 ^ e := by positivity
  cases s with
  | negative => exact (cmp_eq_lt_iff _ _).mpr (neg_neg_of_pos hpos)
  | positive => exact (cmp_eq_gt_iff _ _).mpr hpos

theorem cmp_infinityOf (negative : Bool) (r : ℝ) :
    cmp (infinityOf negative) r = if negative then .lt else .gt := by
  cases negative with
  | true => exact (cmp_eq_lt_iff _ _).mpr (EReal.bot_lt_coe r)
  | false => exact (cmp_eq_gt_iff _ _).mpr (EReal.coe_lt_top r)

/-- **Doubles compare by their values.** -/
theorem compare_eq_cmp (x y : Float) : x.toModel.unpack.compare y.toModel.unpack =
    Option.map₂ cmp (ofFloat x).value? (ofFloat y).value? := by
  have hlegal := @legal_of_ofFloat x
  have hlegal' := @legal_of_ofFloat y
  rw [ofFloat_eq] at hlegal hlegal'
  rw [ofFloat_eq, ofFloat_eq]
  -- zeros have no mantissa of their own, so they are told apart from the other finite doubles
  have hcoe : ∀ r r' : ℝ, cmp (r : EReal) r' = cmp r r' := EReal.coe_strictMono.cmp_map_eq
  cases hx : x.toModel.unpack with
  | notANumber => rfl
  | infinity s =>
    cases hy : y.toModel.unpack with
    | notANumber => cases s <;> rfl
    | infinity s' =>
      change some (compare s s') = some (cmp (infinityOf (isNegative s)) (infinityOf (isNegative s')))
      cases s with
      | negative =>
        cases s' with
        | negative => exact congrArg some (cmp_self_eq_eq _).symm
        | positive => exact congrArg some ((cmp_eq_lt_iff _ _).mpr bot_lt_top).symm
      | positive =>
        cases s' with
        | negative => exact congrArg some ((cmp_eq_gt_iff _ _).mpr bot_lt_top).symm
        | positive => exact congrArg some (cmp_self_eq_eq _).symm
    | zero s' =>
      change _ = some (cmp (infinityOf (isNegative s)) (realOf (isNegative s') 0 (-1074)))
      rw [cmp_infinityOf]
      cases s <;> rfl
    | finite s' m' e' hm' =>
      change _ = some (cmp (infinityOf (isNegative s)) (realOf (isNegative s') m' e'))
      rw [cmp_infinityOf]
      cases s <;> rfl
  | zero s =>
    cases hy : y.toModel.unpack with
    | notANumber => rfl
    | infinity s' =>
      change _ = some (cmp (realOf (isNegative s) 0 (-1074) : EReal) (infinityOf (isNegative s')))
      rw [← cmp_swap, cmp_infinityOf]
      cases s' <;> rfl
    | zero s' =>
      change some .eq = some (cmp (realOf (isNegative s) 0 (-1074) : EReal)
        (realOf (isNegative s') 0 (-1074)))
      rw [realOf_zero, realOf_zero, cmp_self_eq_eq]
    | finite s' m' e' hm' =>
      change _ = some (cmp (realOf (isNegative s) 0 (-1074) : EReal) (realOf (isNegative s') m' e'))
      rw [hcoe, realOf_zero, ← cmp_swap, cmp_realOf_zero hm']
      cases s' <;> rfl
  | finite s m e hm =>
    cases hy : y.toModel.unpack with
    | notANumber => cases s <;> rfl
    | infinity s' =>
      change _ = some (cmp (realOf (isNegative s) m e : EReal) (infinityOf (isNegative s')))
      rw [← cmp_swap, cmp_infinityOf]
      cases s <;> cases s' <;> rfl
    | zero s' =>
      change _ = some (cmp (realOf (isNegative s) m e : EReal) (realOf (isNegative s') 0 (-1074)))
      rw [hcoe, realOf_zero, cmp_realOf_zero hm]
      cases s <;> rfl
    | finite s' m' e' hm' =>
      rw [compare_finite hm hm' (hlegal (by rw [hx]; rfl)) (hlegal' (by rw [hy]; rfl)), ← hcoe]
      rfl

/-- A double is less than another if its value is. -/
theorem lt_iff (x y : Float) : Scalar.lt x y = true ↔
    ∃ v ∈ (ofFloat x).value?, ∃ w ∈ (ofFloat y).value?, v < w := by
  change decide (decide ((x.toModel.unpack.compare y.toModel.unpack == some .lt) = true) = true) =
    true ↔ _
  rw [Bool.decide_eq_true, Bool.decide_eq_true, beq_iff_eq, compare_eq_cmp, Option.map₂_eq_some_iff]
  constructor
  · rintro ⟨v, w, hv, hw, hcmp⟩
    exact ⟨v, hv, w, hw, (cmp_eq_lt_iff v w).mp hcmp⟩
  · rintro ⟨v, hv, w, hw, hlt⟩
    exact ⟨v, w, hv, hw, (cmp_eq_lt_iff v w).mpr hlt⟩

/-- No double is less than itself. -/
theorem lt_self (x : Float) : Scalar.lt x x = false := by
  rw [Bool.eq_false_iff]
  intro h
  obtain ⟨v, hv, w, hw, hlt⟩ := (lt_iff x x).mp h
  exact hlt.ne (Option.mem_unique hv hw)

/-- A double equals another if its value does. -/
theorem beq_iff (x y : Float) :
    (x == y) = true ↔ ∃ v ∈ (ofFloat x).value?, v ∈ (ofFloat y).value? := by
  change (x.toModel.unpack.compare y.toModel.unpack == some .eq) = true ↔ _
  rw [beq_iff_eq, compare_eq_cmp, Option.map₂_eq_some_iff]
  constructor
  · rintro ⟨v, w, hv, hw, hcmp⟩
    rw [(cmp_eq_eq_iff v w).mp hcmp] at hv
    exact ⟨w, hv, hw⟩
  · rintro ⟨v, hv, hw⟩
    exact ⟨v, v, hv, hw, cmp_self_eq_eq v⟩

theorem quotient_pos (m : ℕ) (e : ℤ) : 0 < (quotient m e).2 := by
  cases e with
  | ofNat k => exact Nat.one_pos
  | negSucc k => exact Nat.two_pow_pos (k + 1)

theorem quotient_eq (m : ℕ) (e : ℤ) : ((quotient m e).1 : ℝ) = m * 2 ^ e * (quotient m e).2 := by
  cases e with
  | ofNat k => simp [quotient]
  | negSucc k => simp [quotient, zpow_negSucc]

/-- The numerator with its sign. -/
theorem signed_quotient (negative : Bool) (m : ℕ) (e : ℤ) :
    ((if negative then -((quotient m e).1 : ℤ) else (quotient m e).1 : ℤ) : ℝ) =
      realOf negative m e * (quotient m e).2 := by
  rw [realOf, Nat.cast_ofNat]
  cases negative with
  | true =>
    rw [if_pos rfl, if_pos rfl, Int.cast_neg, Int.cast_natCast, quotient_eq, neg_mul]
  | false => exact quotient_eq m e

end Binary64

namespace ExactNumber

/-- The value of a number, if it is one. -/
noncomputable def value? : ExactNumber → Option EReal
  | int n => some ((n : ℝ) : EReal)
  | real x => (Binary64.ofFloat x).value?

theorem isInt_iff (x : Float) (n : ℤ) :
    isInt x n = true ↔ (Binary64.ofFloat x).value? = some ((n : ℝ) : EReal) := by
  unfold isInt
  cases Binary64.ofFloat x with
  | undefined => simp [Binary64.value?]
  | infinite negative => cases negative <;> simp [Binary64.value?, Binary64.infinityOf]
  | finite negative m e =>
    have hpos : (0 : ℝ) < (Binary64.quotient m e).2 := by exact_mod_cast Binary64.quotient_pos m e
    change ((if negative then -((Binary64.quotient m e).1 : ℤ) else (Binary64.quotient m e).1) ==
      n * ((Binary64.quotient m e).2 : ℤ)) = true ↔ some (_ : EReal) = _
    rw [beq_iff_eq, ← Int.cast_inj (α := ℝ), Binary64.signed_quotient, Option.some.injEq,
      EReal.coe_eq_coe_iff]
    push_cast
    exact mul_left_inj' hpos.ne'

theorem intLt_iff (n : ℤ) (t : Float) :
    intLt n t = true ↔ ∃ w ∈ (Binary64.ofFloat t).value?, ((n : ℝ) : EReal) < w := by
  unfold intLt
  cases Binary64.ofFloat t with
  | undefined => simp [Binary64.value?]
  | infinite negative => cases negative <;> simp [Binary64.value?, Binary64.infinityOf]
  | finite negative m e =>
    have hpos : (0 : ℝ) < (Binary64.quotient m e).2 := by exact_mod_cast Binary64.quotient_pos m e
    change decide (n * ((Binary64.quotient m e).2 : ℤ) <
      if negative then -((Binary64.quotient m e).1 : ℤ) else (Binary64.quotient m e).1) = true ↔ _
    rw [decide_eq_true_eq, ← Int.cast_lt (R := ℝ), Binary64.signed_quotient]
    push_cast
    rw [mul_lt_mul_iff_left₀ hpos]
    simp [Binary64.value?]

/-- Numbers are the same if they have one value. -/
theorem same_iff (m m' : ExactNumber) : m.same m' = true ↔ ∃ v ∈ m.value?, v ∈ m'.value? := by
  cases m with
  | int n =>
    cases m' with
    | int k => simp [same, value?, eq_comm (a := n)]
    | real x => simp [same, value?, isInt_iff]
  | real x =>
    cases m' with
    | int n => simp [same, value?, isInt_iff]
    | real y => exact Binary64.beq_iff x y

/-- A number is less than a double if its value is. -/
theorem ltReal_iff (m : ExactNumber) (t : Float) :
    m.ltReal t = true ↔ ∃ v ∈ m.value?, ∃ w ∈ (Binary64.ofFloat t).value?, v < w := by
  cases m with
  | int n => simp [ltReal, value?, intLt_iff]
  | real x => exact Binary64.lt_iff x t

/-- **Numbers that are the same are less than the same doubles.** -/
theorem ltReal_eq_of_same {m m' : ExactNumber} (h : m.same m' = true) (t : Float) :
    m.ltReal t = m'.ltReal t := by
  obtain ⟨v, hv, hv'⟩ := (same_iff m m').mp h
  rw [Bool.eq_iff_iff, ltReal_iff, ltReal_iff, Option.mem_def.mp hv, Option.mem_def.mp hv']

/-- The numbers that are doubles, as they are handed on: a whole number needs no more than sixty-four
bits, and has to be the double next to it. -/
inductive IsDouble : ExactNumber → Prop
  /-- A double. -/
  | real (x : Float) : IsDouble (.real x)
  /-- A whole number. -/
  | int {n : ℤ} (range : -2 ^ 63 ≤ n ∧ n < 2 ^ 63) (exact : isInt (Decimal.ofInt n) n = true) :
      IsDouble (.int n)

/-- Handing on a number that is a double does not move it. -/
theorem IsDouble.exists_toFloat? {m : ExactNumber} (h : m.IsDouble) :
    ∃ x, m.toFloat? = some x ∧ ∀ t, Scalar.lt x t = m.ltReal t := by
  cases h with
  | real x => exact ⟨x, rfl, fun t => rfl⟩
  | @int n hrange hexact =>
    refine ⟨Decimal.ofInt n, if_pos hrange, fun t => ?_⟩
    have hsame : (ExactNumber.real (Decimal.ofInt n)).same (.int n) = true := hexact
    exact ltReal_eq_of_same hsame t

end ExactNumber

end GibbsNewton
