import GibbsNewton.Linear.LU
import GibbsNewton.Linear.QR
import GibbsNewton.Proofs.Linear.Real

/-!
# What a finite result came from

In exact arithmetic a value that is not finite survives every operation, so a finite result vouches
for all the data that went into it.  Here this is said of the sums and products of vectors and
matrices and of the solvers built from them: a finite solution comes from a finite right-hand side,
and finite orthogonal factors come from a finite matrix, unless the triangular one hides a value that
is not finite on its diagonal, where a substitution would find it.

## Main definitions

* `Mat.Factoring.Vouches` — finite factors come from a finite matrix.

## Main results

* `Vec.isFinite_dot`, `Mat.isFinite_mulVec_iff`, `Mat.isFinite_mul_iff` — products.
* `LU.isFinite_of_solve`, `Mat.isFinite_of_solveLower`, `Mat.isFinite_of_solveUpper` — solving.
* `Mat.isFinite_of_qr`, `Mat.vouches_reflecting` — orthogonal factors.
-/

namespace GibbsNewton

variable {m n k : ℕ}

/-! ### Sums and products -/

theorem Exact.isFinite_of_sqrt {a : Exact} (h : Scalar.isFinite (Scalar.sqrt a) = true) :
    Scalar.isFinite a = true := by
  cases a with
  | real a => rfl
  | undefined => exact h

/-- What equals something is a real number. -/
theorem Exact.isFinite_of_beq {a b : Exact} (h : (a == b) = true) : Scalar.isFinite a = true := by
  cases a with
  | real a => rfl
  | undefined => exact absurd h (by cases b <;> exact nofun)

theorem Vec.isFinite_dot {v w : Vec Exact n} :
    Scalar.isFinite (v.dot w) = true ↔ v.isFinite = true ∧ w.isFinite = true := by
  simp only [dot, isFinite_sum, isFinite_iff_forall, Exact.isFinite_mul, Bool.and_eq_true,
    forall_and]

namespace Mat

theorem isFinite_iff_forall_row {A : Mat Exact m n} :
    A.isFinite = true ↔ ∀ i, (A i).isFinite = true := by
  simp only [isFinite_iff_forall, Vec.isFinite_iff_forall]

theorem isFinite_transpose {A : Mat Exact m n} :
    A.transpose.isFinite = true ↔ A.isFinite = true := by
  simp only [isFinite_iff_forall, transpose_apply]
  exact forall_comm

theorem isFinite_mulVec_iff {A : Mat Exact m n} {v : Vec Exact n} :
    (A.mulVec v).isFinite = true ↔ ∀ i, (A i).isFinite = true ∧ v.isFinite = true := by
  simp only [mulVec, Vec.isFinite_iff_forall (v := Vec.of _), Vec.of_apply, Vec.isFinite_dot]

theorem isFinite_transposeMulVec_iff {A : Mat Exact m n} {v : Vec Exact m} :
    (A.transposeMulVec v).isFinite = true ↔
      ∀ j i, Scalar.isFinite (A i j) = true ∧ Scalar.isFinite (v i) = true := by
  simp only [transposeMulVec, Vec.isFinite_iff_forall, Vec.of_apply, Vec.isFinite_sum,
    Exact.isFinite_mul, Bool.and_eq_true]

theorem isFinite_mul_iff {A : Mat Exact m k} {B : Mat Exact k n} :
    (A.mul B).isFinite = true ↔
      ∀ i j l, Scalar.isFinite (A i l) = true ∧ Scalar.isFinite (B l j) = true := by
  simp only [mul, isFinite_iff_forall, of_apply, Vec.isFinite_sum, Exact.isFinite_mul,
    Bool.and_eq_true]

end Mat

/-- A vector is finite when its first entry and those after it are. -/
theorem Vec.isFinite_cons {a : Exact} {v : Vec Exact n} :
    (cons a v).isFinite = true ↔ Scalar.isFinite a = true ∧ v.isFinite = true := by
  simp only [isFinite_iff_forall, Fin.forall_fin_succ, cons_zero, cons_succ]

/-! ### Solving -/

/-- A finite solution comes from a finite right-hand side, whatever the factors. -/
theorem LU.isFinite_of_solve (F : LU Exact n) {b : Vec Exact n}
    (h : (F.solve b).isFinite = true) : b.isFinite = true := by
  induction F with
  | done => exact h
  | @step n p pivot upper lower rest ih =>
    rw [solve, Vec.isFinite_cons] at h
    obtain ⟨htop, hbelow⟩ := h
    have hrest := Vec.isFinite_iff_forall.mp (ih hbelow)
    simp only [Exact.isFinite_div, Exact.isFinite_sub, Bool.and_eq_true] at htop
    -- the exchanged right-hand side is finite at the top and below it
    have hexchanged : ∀ i, Scalar.isFinite (b.exchange p i) = true := by
      rw [Fin.forall_fin_succ]
      refine ⟨htop.1.1.1, fun i => ?_⟩
      have hi := hrest i
      rw [Vec.of_apply, Exact.isFinite_sub, Bool.and_eq_true] at hi
      exact hi.1
    apply Vec.isFinite_iff_forall.mpr
    intro i
    have hi := hexchanged (Vec.exchanged p i)
    have hback : Vec.exchanged p (Vec.exchanged p i) = i := by
      unfold Vec.exchanged
      grind
    rwa [Vec.exchange_apply, hback] at hi

namespace Mat

/-- Substitution from the first row down divides by every diagonal entry. -/
theorem isFinite_of_solveLower {L : Mat Exact n n} {b : Vec Exact n}
    (h : (L.solveLower b).isFinite = true) :
    L.diag.isFinite = true ∧ b.isFinite = true := by
  induction n with
  | zero => exact ⟨Vec.isFinite_iff_forall.mpr fun i => i.elim0, h⟩
  | succ n ih =>
    rw [solveLower, Vec.isFinite_cons, Exact.isFinite_div] at h
    simp only [Bool.and_eq_true] at h
    obtain ⟨⟨⟨hb, hL⟩, -⟩, hbelow⟩ := h
    obtain ⟨hdiag, hrest⟩ := ih hbelow
    rw [Vec.isFinite_iff_forall] at hdiag hrest
    constructor
    · rw [Vec.isFinite_iff_forall, Fin.forall_fin_succ]
      exact ⟨by simpa using hL, fun i => by simpa [block] using hdiag i⟩
    · rw [Vec.isFinite_iff_forall, Fin.forall_fin_succ]
      refine ⟨hb, fun i => ?_⟩
      have hi := hrest i
      rw [Vec.of_apply, Exact.isFinite_sub, Bool.and_eq_true] at hi
      exact hi.1

theorem isFinite_of_solveUpper {R : Mat Exact n n} {b : Vec Exact n}
    (h : (R.solveUpper b).isFinite = true) : b.isFinite = true := by
  induction n with
  | zero => exact h
  | succ n ih =>
    rw [solveUpper, Vec.isFinite_cons] at h
    simp only [Exact.isFinite_div, Exact.isFinite_sub, Bool.and_eq_true] at h
    have hrest := Vec.isFinite_iff_forall.mp (ih h.2)
    rw [Vec.isFinite_iff_forall, Fin.forall_fin_succ]
    exact ⟨h.1.1.1.1, fun i => by simpa using hrest i⟩

end Mat

/-! ### Orthogonal factors -/

namespace Reflector

/-- A reflection with a finite scale that sends its column to a finite head was chosen for a finite
column. -/
theorem isFinite_of_ofColumn {a : Vec Exact (n + 1)}
    (hscale : Scalar.isFinite (ofColumn a).scale = true)
    (hhead : Scalar.isFinite (ofColumn a).head = true) : a.isFinite = true := by
  have hsquare : Scalar.isFinite (a.tail.dot a.tail) = true → a.tail.isFinite = true :=
    fun h => (Vec.isFinite_dot.mp h).1
  rw [Vec.isFinite_iff_forall, Fin.forall_fin_succ]
  unfold ofColumn at hscale hhead
  dsimp only at hscale hhead
  split at hhead
  next h =>
    -- no reflection: the rest of the column was compared with zero, and its top is the head
    have htail := Vec.isFinite_iff_forall.mp (hsquare (Exact.isFinite_of_beq h))
    exact ⟨hhead, fun i => by simpa using htail i⟩
  next h =>
    rw [if_neg h] at hscale
    simp only [Exact.isFinite_div, Exact.isFinite_sub, Bool.and_eq_true] at hscale
    have hnorm : Scalar.isFinite (Scalar.sqrt (a.head * a.head + a.tail.dot a.tail)) = true := by
      split at hhead
      · exact hhead
      · simpa using hhead
    have hsum := Exact.isFinite_of_sqrt hnorm
    rw [Exact.isFinite_add, Bool.and_eq_true] at hsum
    have htail := Vec.isFinite_iff_forall.mp (hsquare hsum.2)
    exact ⟨hscale.1.1.2, fun i => by simpa using htail i⟩

/-- Reflected columns are finite when the columns and the scale are. -/
theorem isFinite_of_apply {h : Reflector Exact n} {A : Mat Exact (n + 1) k} {i : Fin (n + 1)}
    {j : Fin k} (hij : Scalar.isFinite (h.apply A i j) = true) :
    Scalar.isFinite h.scale = true ∧ ∀ l, Scalar.isFinite (A l j) = true := by
  unfold apply at hij
  rw [Mat.of_apply, Exact.isFinite_sub, Exact.isFinite_mul, Exact.isFinite_mul] at hij
  simp only [Bool.and_eq_true] at hij
  obtain ⟨-, ⟨hscale, -⟩, hw⟩ := hij
  rw [Mat.transposeMulVec, Vec.of_apply, Vec.isFinite_sum] at hw
  refine ⟨hscale, fun l => ?_⟩
  have hl := hw l
  rw [Exact.isFinite_mul, Bool.and_eq_true] at hl
  exact hl.1

end Reflector

/-- **Finite factors come from a finite matrix** with at least as many rows as columns.  Finiteness of
the orthogonal factor alone is not enough: a column that lies on the first axis is not reflected, and
its one entry goes to the diagonal of the triangular factor unseen. -/
theorem Mat.isFinite_of_qr {A : Mat Exact n m} (h : m ≤ n) (hQ : A.qr.1.isFinite = true)
    (hR : ∀ j, Scalar.isFinite (A.qr.2 (Fin.castLE h j) j) = true) : A.isFinite = true := by
  induction n generalizing m with
  | zero => exact isFinite_iff_forall.mpr fun i => i.elim0
  | succ n ih =>
    cases m with
    | zero => exact isFinite_iff_forall.mpr fun _ j => j.elim0
    | succ m =>
      have hmn : m ≤ n := Nat.le_of_succ_le_succ h
      rw [isFinite_iff_forall] at hQ
      unfold qr at hQ hR
      dsimp only at hQ hR
      set r := Reflector.ofColumn (A.map Vec.head) with hr
      set B := r.apply A with hB
      have hscale : Scalar.isFinite r.scale = true := (Reflector.isFinite_of_apply (hQ 0 0)).1
      have hhead : Scalar.isFinite r.head = true := by simpa [bordered] using hR 0
      have hcolumn := Vec.isFinite_iff_forall.mp (Reflector.isFinite_of_ofColumn hscale hhead)
      have hblock : B.block.isFinite = true := by
        refine ih hmn (isFinite_iff_forall.mpr fun i j => ?_) fun j => ?_
        · have hij := (Reflector.isFinite_of_apply (hQ 0 j.succ)).2 i.succ
          simpa [bordered] using hij
        · have hj := hR j.succ
          rw [Fin.castLE_succ] at hj
          simpa [bordered] using hj
      rw [isFinite_iff_forall]
      intro i j
      cases j using Fin.cases with
      | zero => simpa using hcolumn i
      | succ j =>
        -- the block has a row, since it has as many rows as columns at least
        have hrow := isFinite_iff_forall.mp hblock ⟨j, by omega⟩ j
        simp only [block, Vec.map_apply, Vec.tail_apply] at hrow
        exact (Reflector.isFinite_of_apply hrow).2 i

/-- Finite factors, as far as the diagonal of the triangular one, come from a finite matrix. -/
def Mat.Factoring.Vouches (qr : Mat.Factoring Exact) : Prop :=
  ∀ {n m : ℕ} {A : Mat Exact n m} (h : m ≤ n), (qr n m A).1.isFinite = true →
    (∀ j, Scalar.isFinite ((qr n m A).2 (Fin.castLE h j) j) = true) → A.isFinite = true

theorem Mat.vouches_reflecting : Mat.Factoring.Vouches Mat.reflecting := Mat.isFinite_of_qr

end GibbsNewton
