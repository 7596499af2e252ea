import GibbsNewton.Equilibrium.Batch
import GibbsNewton.Proofs.Equilibrium.Dependence
import GibbsNewton.Proofs.Traversal

/-!
# The samples of a batch are independent

A batch is the product of its samples.  Each call to a batch means something for each sample, and for
some of them nothing; whatever the calls are, a sample ends where a session of its own ends that was
given only what the calls mean for it.  What an operation does to such a session is written out here: an
assignment of amounts changes these and nothing else.

The argument is one simulation.  `Batch.Follows` says of two batches that each sample of the second one
is where some operations have taken the same sample of the first one.  It is transitive, every call is
an instance of it, and so is every list of calls.

## Main definitions

* `Call`, `Batch.perform` — the calls to a batch.
* `Operation`, `Session.perform` — what can be done with a session.
* `Call.concerning` — what a call means for one sample.
* `Batch.Follows` — each sample has gone its own way.

## Main results

* `Batch.follows_of_perform` — a call, sample by sample.
* `Batch.alone_of_calls` — **a sample is where a session of its own would be.**
* `Batch.exists_equilibrate` — with accepted options every sample gets its calculation.
-/

namespace GibbsNewton

/-! ### Lists and vectors -/

variable {n m : ℕ}

/-- A list of the right length is read entry by entry. -/
theorem Vec.toList_sized {α : Type} [Scalar α] {xs : List α} (h : xs.length = n) :
    (Vec.sized n xs).toList = xs := by
  subst h
  rw [sized, ofList?, dif_pos rfl]
  exact Vector.toList_ofFn.trans (List.ofFn_get xs)

theorem Vec.sized_of_length_ne {α : Type} [Scalar α] {xs : List α} (h : xs.length ≠ n) :
    Vec.sized n xs = Vec.const n 0 := by
  rw [sized, ofList?, dif_neg h]
  rfl

namespace Equilibrium

variable {α : Type}

/-! ### Calls and operations -/

/-- What is given to sample `k`. -/
def Supply.item? {β : Type} (k : ℕ) : Supply β → Option β
  | shared x => some x
  | each xs => xs[k]?

/-- A supply that fits has something for every sample. -/
theorem Supply.getElem?_of_forSamples {β : Type} {s : Supply β} {count : ℤ} {xs : List β}
    (h : (s.forSamples count : Except (BatchError α) (List β)) = .ok xs) :
    (xs.length : ℤ) = count ∧ ∀ k < xs.length, s.item? k = xs[k]? := by
  unfold forSamples at h
  by_cases hcount : count < 1
  · rw [if_pos hcount] at h
    cases h
  rw [if_neg hcount] at h
  cases s with
  | shared x =>
    cases h
    refine ⟨by simp; omega, fun k hk => ?_⟩
    rw [List.length_replicate] at hk
    rw [item?, List.getElem?_replicate, if_pos hk]
  | each ys =>
    dsimp only at h
    split at h
    next hlength =>
      cases h
      exact ⟨hlength, fun _ _ => rfl⟩
    next => cases h

/-- A call to a batch. -/
inductive Call (α : Type)
  /-- The same amounts for all samples. -/
  | setAll (amounts : List α)
  /-- The same amounts for some samples. -/
  | setSubset (amounts : List α) (indices : List ℤ)
  /-- A calculation for every sample. -/
  | equilibrate (amounts : Tensor α)

/-- What is done with a session. -/
inductive Operation (α : Type) (m : ℕ)
  /-- Other amounts to start from. -/
  | assign (amounts : List α)
  /-- A calculation with some element amounts. -/
  | solve (amounts : Vec α m)

namespace Call

/-- A number stands for sample `k` out of `count`, from the front or from the end. -/
def Addresses (count k : ℕ) (i : ℤ) : Prop := i = k ∨ i + count = k

instance (count k : ℕ) (i : ℤ) : Decidable (Addresses count k i) :=
  inferInstanceAs (Decidable (i = k ∨ i + count = k))

/-- What a call means for sample `k` out of `count`. -/
def concerning (m count k : ℕ) : Call α → List (Operation α m)
  | setAll amounts => [.assign amounts]
  | setSubset amounts indices =>
    (indices.filter fun i => Addresses count k i).map fun _ => .assign amounts
  | equilibrate amounts => ((amounts.rows[k]?.bind (Vec.ofList? m)).map .solve).toList

end Call

theorem place?_eq_some_iff {count k : ℕ} {i : ℤ} :
    place? count i = some k ↔ k < count ∧ Call.Addresses count k i := by
  unfold place? Call.Addresses
  by_cases hi : i < 0
  · simp only [hi, if_true]
    split
    · rw [Option.some.injEq]
      omega
    · simp only [reduceCtorEq, false_iff]
      omega
  · simp only [hi, if_false]
    split
    · rw [Option.some.injEq]
      omega
    · simp only [reduceCtorEq, false_iff]
      omega

variable [Scalar α] (minimise : Optimum.Minimiser α)

/-- An operation on a session, if it is not refused. -/
def Session.perform (formula : Mat α m n) (o : Options α) (g : GibbsModel α n) (w : Session α) :
    Operation α m → Option (Session α)
  | .assign amounts =>
    some { w with result := { w.result with point := { w.result.point with x := amounts } } }
  | .solve amounts =>
    match w.solve minimise { formula, amounts, model := g } o with
    | (.ok (), w) => some w
    | (.error _, _) => none

namespace Batch

/-- A call to a batch, if it is not refused. -/
def perform (b : Batch α n m) : Call α → Option (Batch α n m)
  | .setAll amounts => some (b.setAll amounts)
  | .setSubset amounts indices =>
    match setSubset amounts indices b with
    | (true, b) => some b
    | (false, _) => none
  | .equilibrate amounts =>
    match b.equilibrate minimise amounts with
    | (.ok (), b) => some b
    | (.error _, _) => none

/-! ### Each sample goes its own way -/

/-- Each sample of `b'` is where operations of its own have taken the same sample of `b`. -/
structure Follows (b : Batch α n m) (ops : ℕ → List (Operation α m)) (b' : Batch α n m) : Prop where
  formula : b'.formula = b.formula
  options : b'.options = b.options
  length : b'.samples.length = b.samples.length
  sample : ∀ {k s}, b.samples[k]? = some s → ∃ w,
    (ops k).foldlM (Session.perform minimise b.formula b.options s.model) s.session = some w ∧
    b'.samples[k]? = some { s with session := w }

variable {minimise} {b b₁ b₂ : Batch α n m} {ops ops' : ℕ → List (Operation α m)}

theorem Follows.refl (b : Batch α n m) : b.Follows minimise (fun _ => []) b :=
  ⟨rfl, rfl, rfl, fun {_ s} hs => ⟨s.session, rfl, hs⟩⟩

/-- First some operations and then others. -/
theorem Follows.trans (h : b.Follows minimise ops b₁) (h' : b₁.Follows minimise ops' b₂) :
    b.Follows minimise (fun k => ops k ++ ops' k) b₂ where
  formula := h'.formula.trans h.formula
  options := h'.options.trans h.options
  length := h'.length.trans h.length
  sample := by
    intro k s hs
    obtain ⟨w₁, hw₁, hs₁⟩ := h.sample hs
    obtain ⟨w₂, hw₂, hs₂⟩ := h'.sample hs₁
    rw [h.formula, h.options] at hw₂
    refine ⟨w₂, ?_, hs₂⟩
    rw [List.foldlM_append, hw₁]
    exact hw₂

/-- Other amounts for a sample are an assignment for it, and nothing for the others. -/
theorem follows_modify (minimise : Optimum.Minimiser α) (b : Batch α n m) {i : ℤ} {j : ℕ}
    (hj : place? b.samples.length i = some j) (amounts : List α) :
    b.Follows minimise
      (fun k => if Call.Addresses b.samples.length k i then [.assign amounts] else [])
      { b with samples := b.samples.modify j (·.setAmounts amounts) } where
  formula := rfl
  options := rfl
  length := List.length_modify ..
  sample := by
    intro k s hs
    have hk : k < b.samples.length := (List.getElem?_eq_some_iff.mp hs).1
    have hiff : Call.Addresses b.samples.length k i ↔ j = k := by
      rw [← Option.some_inj, ← hj, place?_eq_some_iff]
      exact ⟨fun h => ⟨hk, h⟩, fun h => h.2⟩
    dsimp only
    by_cases hjk : j = k
    · refine ⟨s.session.setAmounts amounts, ?_, ?_⟩
      · rw [if_pos (hiff.mpr hjk)]
        rfl
      · subst hjk
        rw [List.getElem?_modify_eq, hs]
        rfl
    · refine ⟨s.session, ?_, ?_⟩
      · rw [if_neg (mt hiff.mp hjk)]
        rfl
      · rw [List.getElem?_modify_ne _ _ hjk, hs]

theorem Follows.congr (h : b.Follows minimise ops b₁) (hops : ∀ k, ops k = ops' k) :
    b.Follows minimise ops' b₁ :=
  funext hops ▸ h

theorem follows_setAll (b : Batch α n m) (amounts : List α) :
    b.Follows minimise (fun _ => [.assign amounts]) (b.setAll amounts) where
  formula := rfl
  options := rfl
  length := List.length_map ..
  sample := by
    intro k s hs
    refine ⟨s.session.setAmounts amounts, rfl, ?_⟩
    rw [setAll, List.getElem?_map, hs]
    rfl

theorem follows_setSubset {amounts : List α} {indices : List ℤ}
    (h : setSubset amounts indices b = (true, b₁)) :
    b.Follows minimise
      (fun k => (Call.setSubset amounts indices).concerning m b.samples.length k) b₁ := by
  induction indices generalizing b with
  | nil =>
    cases h
    exact .refl _
  | cons i indices ih =>
    rw [setSubset] at h
    cases hj : place? b.samples.length i with
    | none =>
      rw [hj] at h
      cases h
    | some j =>
      rw [hj] at h
      have hfirst := follows_modify minimise b hj amounts
      refine (hfirst.trans (ih h)).congr fun k => ?_
      rw [hfirst.length]
      by_cases hi : Call.Addresses b.samples.length k i
      · simp [Call.concerning, hi]
      · simp [Call.concerning, hi]

/-! ### Calculations -/

/-- Every sample gets its calculation when none is refused. -/
theorem session_of_solveSamples {formula : Mat α m n} {o : Options α} {ss ss' : List (Sample α n)}
    {rows : List (Vec α m)} (hlength : rows.length = ss.length)
    (h : solveSamples minimise formula o ss rows = (.ok (), ss')) :
    ss'.length = ss.length ∧ ∀ (k : ℕ) (s : Sample α n) (row : Vec α m), ss[k]? = some s →
      rows[k]? = some row → ∃ w,
        s.session.perform minimise formula o s.model (.solve row) = some w ∧
        ss'[k]? = some { s with session := w } := by
  induction ss generalizing ss' rows with
  | nil =>
    obtain rfl : rows = [] := List.eq_nil_of_length_eq_zero hlength
    cases h
    simp
  | cons s ss ih =>
    obtain ⟨row, rows, rfl⟩ := List.exists_cons_of_length_eq_add_one hlength
    rw [solveSamples, Sample.solve] at h
    cases hsolve : s.session.solve minimise { formula, amounts := row, model := s.model } o with
    | mk outcome w =>
      rw [hsolve] at h
      cases outcome with
      | error e => cases h
      | ok =>
        dsimp only at h
        obtain ⟨houtcome, rfl⟩ := Prod.mk.inj h
        obtain ⟨hlen, hget⟩ := ih (by simpa using hlength) (Prod.ext houtcome rfl)
        refine ⟨by simp [hlen], fun k t row' ht hrow => ?_⟩
        cases k with
        | zero =>
          obtain rfl : s = t := by simpa using ht
          obtain rfl : row = row' := by simpa using hrow
          refine ⟨w, ?_, rfl⟩
          unfold Session.perform
          dsimp only
          rw [hsolve]
        | succ k => exact hget k t row' ht hrow

omit [Scalar α] in
/-- A batch takes its rows from the array, one for each sample. -/
theorem getElem?_of_rowsOf {amounts : Tensor α} {rows : List (Vec α m)}
    (h : b.rowsOf amounts = .ok rows) :
    rows.length = b.samples.length ∧
      ∀ k : ℕ, rows[k]? = amounts.rows[k]?.bind (Vec.ofList? m) := by
  unfold rowsOf at h
  split at h
  next count size hshape =>
    by_cases hcount : count = b.samples.length
    · rw [if_pos hcount] at h
      split at h
      next rows' hrows =>
        cases h
        obtain ⟨hlength, hget⟩ := Option.getElem?_of_mapM_eq_some hrows
        refine ⟨?_, hget⟩
        rw [hlength, Tensor.rows, hshape, Tensor.length_pieces, hcount]
      next => cases h
    · rw [if_neg hcount] at h
      cases h
  next => cases h

theorem follows_equilibrate {amounts : Tensor α} (h : b.equilibrate minimise amounts = (.ok (), b₁)) :
    b.Follows minimise (fun k => (Call.equilibrate amounts).concerning m b.samples.length k) b₁ := by
  unfold equilibrate at h
  cases hrows : b.rowsOf amounts with
  | error e =>
    rw [hrows] at h
    cases h
  | ok rows =>
    rw [hrows] at h
    dsimp only at h
    cases hsolve : solveSamples minimise b.formula b.options b.samples rows with
    | mk outcome samples =>
      rw [hsolve] at h
      cases outcome with
      | error e => cases h
      | ok =>
        cases h
        obtain ⟨hlength, hget⟩ := getElem?_of_rowsOf hrows
        obtain ⟨hsamples, hsession⟩ := session_of_solveSamples hlength hsolve
        refine ⟨rfl, rfl, hsamples, fun {k s} hs => ?_⟩
        have hk : k < rows.length := hlength ▸ (List.getElem?_eq_some_iff.mp hs).1
        obtain ⟨w, hw, hs'⟩ := hsession k s rows[k] hs (List.getElem?_eq_getElem hk)
        refine ⟨w, ?_, hs'⟩
        have hrow : amounts.rows[k]?.bind (Vec.ofList? m) = some rows[k] := by
          rw [← hget k, List.getElem?_eq_getElem hk]
        rw [Call.concerning, hrow, Option.map_some, Option.toList_some, List.foldlM_cons, hw]
        rfl

/-! ### Calls -/

/-- **A call, sample by sample.**  For each sample the call means what it means for that sample. -/
theorem follows_of_perform {call : Call α} (h : b.perform minimise call = some b₁) :
    b.Follows minimise (call.concerning m b.samples.length) b₁ := by
  cases call with
  | setAll amounts =>
    cases h
    exact b.follows_setAll amounts
  | setSubset amounts indices =>
    unfold perform at h
    dsimp only at h
    split at h
    next hset =>
      cases h
      exact follows_setSubset hset
    next => cases h
  | equilibrate amounts =>
    unfold perform at h
    dsimp only at h
    split at h
    next hset =>
      cases h
      exact follows_equilibrate hset
    next => cases h

/-- All calls, sample by sample. -/
theorem follows_of_calls {calls : List (Call α)}
    (h : calls.foldlM (Batch.perform minimise) b = some b₁) :
    b.Follows minimise (fun k => calls.flatMap (Call.concerning m b.samples.length k)) b₁ := by
  induction calls generalizing b with
  | nil =>
    cases h
    exact .refl _
  | cons call calls ih =>
    rw [List.foldlM_cons] at h
    obtain ⟨b', hb', h⟩ := Option.bind_eq_some_iff.mp h
    have hcall := follows_of_perform hb'
    refine (hcall.trans (ih h)).congr fun k => ?_
    rw [hcall.length, List.flatMap_cons]

/-- **A sample is where a session of its own would be.**  Let a batch be made of a supply of Gibbs
models, one for all samples or one for each, and let some calls to it be answered, none of them refused.
Then sample `k` holds what a session of its own holds after the operations that the calls mean for `k`,
with the model of `k`, and none of these is refused; and the amounts that the batch reports for `k` are
those, or zeros where they are not one for each species. -/
theorem alone_of_calls {supply : Supply (GibbsModel α n)} {count : ℤ} {gs : List (GibbsModel α n)}
    (hgs : (supply.forSamples count : Except (BatchError α) _) = .ok gs) {formula : Mat α m n}
    {o : Options α} {calls : List (Call α)}
    (hcalls : calls.foldlM (Batch.perform minimise) (ofModels formula o gs) = some b) :
    (b.samples.length : ℤ) = count ∧ b.states.length = b.samples.length ∧
    ∀ k < b.samples.length, ∃ (g : GibbsModel α n) (w : Session α) (row : Vec α n),
      supply.item? k = some g ∧
      (calls.flatMap (Call.concerning m b.samples.length k)).foldlM
        (Session.perform minimise formula o g) {} = some w ∧
      b.samples[k]? = some { model := g, session := w } ∧
      b.states[k]? = some row ∧
      (w.result.point.x.length = n → row.toList = w.result.point.x) ∧
      (w.result.point.x.length ≠ n → row = Vec.const n 0) := by
  obtain ⟨hcount, hitem⟩ := supply.getElem?_of_forSamples hgs
  have hfollows := follows_of_calls hcalls
  have hlength : b.samples.length = gs.length := hfollows.length.trans (List.length_map ..)
  refine ⟨hlength ▸ hcount, List.length_map .., fun k hk => ?_⟩
  rw [hlength] at hk
  have hfresh : (ofModels formula o gs).samples[k]? = some { model := gs[k] } := by
    rw [ofModels, List.getElem?_map, List.getElem?_eq_getElem hk]
    rfl
  obtain ⟨w, hw, hsample⟩ := hfollows.sample hfresh
  rw [← hfollows.length] at hw
  refine ⟨gs[k], w, Vec.sized n w.result.point.x, ?_, hw, hsample, ?_, Vec.toList_sized,
    Vec.sized_of_length_ne⟩
  · rw [hitem k hk, List.getElem?_eq_getElem hk]
  · rw [states, List.getElem?_map, hsample]
    rfl

/-! ### Calculations that are answered -/

section

variable {o : Options α} {scheme : Scheme} {method : Method} {c : Optimum.Settings α}

/-- With accepted options no sample is refused its calculation. -/
theorem exists_solveSamples (minimise : Optimum.Minimiser α) (formula : Mat α m n)
    (ho : o.check = .ok (scheme, method)) (hc : o.paired.check = .ok c) {ss : List (Sample α n)}
    (hss : ∀ s ∈ ss, s.model.isEvaluable = true) (rows : List (Vec α m)) :
    ∃ ss', solveSamples minimise formula o ss rows = (.ok (), ss') := by
  induction ss generalizing rows with
  | nil => exact ⟨[], by cases rows <;> rfl⟩
  | cons s ss ih =>
    cases rows with
    | nil => exact ⟨s :: ss, rfl⟩
    | cons row rows =>
      obtain ⟨hs, hss⟩ := List.forall_mem_cons.mp hss
      obtain ⟨ss', hss'⟩ := ih hss rows
      obtain ⟨u, report, found, hsolve⟩ := Session.exists_result_solve minimise
        { formula, amounts := row, model := s.model } ho hc (s.session.start o.warmstart)
      have houtcome := (hsolve s.session rfl).1
      rw [hs, if_pos rfl] at houtcome
      refine ⟨(s.solve minimise { formula, amounts := row } o).2 :: ss', ?_⟩
      rw [solveSamples, Sample.solve]
      cases hanswer : s.session.solve minimise
        { formula, amounts := row, model := s.model } o with
      | mk outcome w =>
        rw [hanswer] at houtcome
        cases houtcome
        dsimp only
        rw [hss']

/-- A batch with accepted options answers every array that has a row for each sample. -/
theorem exists_equilibrate (minimise : Optimum.Minimiser α)
    (ho : b.options.check = .ok (scheme, method)) (hc : b.options.paired.check = .ok c)
    (hsamples : ∀ s ∈ b.samples, s.model.isEvaluable = true) {amounts : Tensor α}
    {rows : List (Vec α m)} (hrows : b.rowsOf amounts = .ok rows) :
    ∃ b', b.equilibrate minimise amounts = (.ok (), b') := by
  obtain ⟨ss, hss⟩ := exists_solveSamples minimise b.formula ho hc hsamples rows
  refine ⟨{ b with samples := ss }, ?_⟩
  unfold equilibrate
  rw [hrows]
  dsimp only
  rw [hss]
  rfl

end

/-! ### Two isomers -/

/-- Calls to a batch of two samples: one start for both, another one for the last sample, which is
named twice, and a calculation. -/
noncomputable def isomerCalls : List (Call Exact) :=
  [.setAll [.real 1, .real 1], .setSubset [.real 0, .real 1] [-1, 1],
    .equilibrate ⟨[2, 1], [.real 1, .real 1]⟩]

/-- None of these calls is refused. -/
theorem exists_foldlM_isomerCalls (minimise : Optimum.Minimiser Exact) (formula : Mat Exact 1 2)
    {g : GibbsModel Exact 2} (hg : g.isEvaluable = true) :
    ∃ b, isomerCalls.foldlM (Batch.perform minimise) (ofModels formula .default [g, g]) =
      some b := by
  obtain ⟨c, hc⟩ := Optimum.Options.exists_check_default
  rw [← Options.paired_default] at hc
  -- the batch as it is when the calculation is asked for
  set b : Batch Exact 2 1 := {
    formula
    options := .default
    samples := [
      { model := g, session := ({} : Session Exact).setAmounts [.real 1, .real 1] },
      { model := g, session := ({} : Session Exact).setAmounts [.real 0, .real 1] }] } with hb
  have hset : setSubset [.real 0, .real 1] [-1, 1]
      ((ofModels formula .default [g, g]).setAll [.real 1, .real 1]) = (true, b) := rfl
  obtain ⟨rows, hrows⟩ : ∃ rows, b.rowsOf ⟨[2, 1], [.real 1, .real 1]⟩ = .ok rows := ⟨_, rfl⟩
  obtain ⟨b', hb'⟩ := exists_equilibrate (b := b) minimise Options.check_default hc
    (by simp [hb, hg]) hrows
  refine ⟨b', ?_⟩
  simp only [isomerCalls, List.foldlM_cons, List.foldlM_nil, perform, hset, hb', Option.bind_eq_bind,
    Option.bind_some, Option.pure_def]

theorem alone_of_calls_isomers :
    ∃ (gs : List (GibbsModel Exact 2)) (b : Batch Exact 2 1),
      ((Supply.shared isomers.exact.model).forSamples 2 : Except (BatchError Exact) _) = .ok gs ∧
      isomerCalls.foldlM (Batch.perform Optimum.centralPath)
        (ofModels isomers.exact.formula .default gs) = some b ∧
      ∃ w : Session Exact, (isomerCalls.flatMap (Call.concerning 1 2 1)).foldlM
          (Session.perform Optimum.centralPath isomers.exact.formula .default
            isomers.exact.model) {} = some w ∧
        b.samples[1]? = some { model := isomers.exact.model, session := w } := by
  obtain ⟨b, hb⟩ := exists_foldlM_isomerCalls Optimum.centralPath isomers.exact.formula
    (MixtureProblem.isEvaluable_exact (P := isomers) (by simp [isomers]))
  have hgs : ((Supply.shared isomers.exact.model).forSamples 2 :
      Except (BatchError Exact) _) = .ok (List.replicate 2 isomers.exact.model) := rfl
  obtain ⟨hcount, -, halone⟩ := alone_of_calls hgs hb
  have hlength : b.samples.length = 2 := by exact_mod_cast hcount
  obtain ⟨g, w, row, hg, hw, hsample, -⟩ := halone 1 (by omega)
  cases hg
  rw [hlength] at hw
  exact ⟨_, b, hgs, hb, w, hw, hsample⟩

end Batch

end Equilibrium

end GibbsNewton
