import GibbsNewton.Equilibrium.Objective
import GibbsNewton.Proofs.Memo
import GibbsNewton.Proofs.Value.Key

/-!
# Objectives that remember

A function of arrays that is asked through a memo is evaluated when the keys of its arguments are not those
of its last evaluation.  Its answer is what it would answer itself, if the texts of types tell the types of
the arrays apart; where two types have one text, arrays may be taken for each other, and the answer to the
earlier ones is given to the later ones.  The types of numbers are told apart.

The objective of an equilibrium problem is such a function of one array, the point, and both the energy and
the gradient are read off what it answers.  So whatever was asked before, each is the one at its own point,
and there is one evaluation whenever the point is not that of the call before.

## Main definitions

* `Equilibrium.Objective.Call`, `Equilibrium.Objective.after` — a call, and the objective of a problem
  after calls in order.
* `Equilibrium.Objective.Answers` — what the objective of a problem answers after some calls.

## Main results

* `Equilibrium.pointKey_injective` — points are told apart.
* `Equilibrium.Objective.memo_after` — the memo of an objective after some calls.
* `Equilibrium.Objective.transparent_memos` — **memos are transparent**, for functions of arrays, and for
  the objectives of problems.
-/

namespace GibbsNewton.Equilibrium

variable {n m : ℕ}

/-- The keys of points are compared as they are. -/
theorem sameKeys_pointKey_iff (a b : Vec Float n) :
    sameKeys (pointKey a) (pointKey b) = true ↔ pointKey a = pointKey b :=
  StoredArray.sameKeys_keys_iff _ _

/-- Points are told apart. -/
theorem pointKey_injective : Function.Injective (pointKey (n := n)) := by
  intro a b h
  have hpoints := StoredArray.eq_of_keys_eq (fun _ _ _ _ ht => EntryType.text_injective ht) h
  have htensors := Tensor.stored_injective (List.cons.inj hpoints).1
  exact Vec.toList_inj.mp (congrArg Tensor.entries htensors)

namespace Objective

/-- A call to an objective. -/
inductive Call (n : ℕ)
  /-- The energy at a point. -/
  | energy (a : Vec Float n)
  /-- The gradient at a point. -/
  | gradient (a : Vec Float n)

/-- The point that is asked about. -/
def Call.point : Call n → Vec Float n
  | energy a => a
  | gradient a => a

/-- The objective after a call. -/
def next (o : Objective n m) : Call n → Objective n m
  | .energy a => (o.energy a).2
  | .gradient a => (o.gradient a).2

/-- The objective of a problem after calls in order. -/
def after (p : Problem Float n m) (calls : List (Call n)) : Objective n m :=
  calls.foldl next { problem := p }

theorem after_concat (p : Problem Float n m) (calls : List (Call n)) (c : Call n) :
    after p (calls ++ [c]) = (after p calls).next c := by
  rw [after, List.foldl_append]
  rfl

theorem next_eq (o : Objective n m) (c : Call n) : o.next c = (o.evaluate c.point).2 := by
  cases c <;> rfl

/-- The memo of an objective after some calls is that of one function after as many questions. -/
theorem memo_after (p : Problem Float n m) (calls : List (Call n)) :
    (after p calls).problem = p ∧ (after p calls).memo =
      Memo.after sameKeys pointKey p.energyAndGradient {} (calls.map Call.point) := by
  induction calls using List.reverseRecOn with
  | nil => exact ⟨rfl, rfl⟩
  | append_singleton calls c ih =>
    obtain ⟨hproblem, hmemo⟩ := ih
    rw [after_concat, next_eq, List.map_append, List.map_singleton, Memo.after_concat, ← hmemo, evaluate,
      hproblem]
    exact ⟨rfl, rfl⟩

/-- What the objective of a problem answers after some calls, and when it evaluates anything. -/
structure Answers (p : Problem Float n m) (s : Scheme) (calls : List (Call n)) : Prop where
  /-- The energy is that of the point asked about. -/
  energy : ∀ a, ((after p calls).energy a).1 =
    if p.model.isEvaluable then .ok ((p.optimum s).objective a) else .error .notEvaluable
  /-- The gradient is that of the point asked about. -/
  gradient : ∀ a, ((after p calls).gradient a).1 =
    if p.model.isEvaluable then .ok ((p.optimum s).gradient a) else .error .notEvaluable
  /-- There is one evaluation, unless the call before was about the same point. -/
  evaluated : ∀ c : Call n, (calls.map Call.point).getLast? ≠ some c.point →
    (after p (calls ++ [c])).memo.runs = (after p calls).memo.runs + 1
  /-- Otherwise there is none. -/
  remembered : ∀ c : Call n, (calls.map Call.point).getLast? = some c.point →
    p.model.isEvaluable = true → (after p (calls ++ [c])).memo.runs = (after p calls).memo.runs
  /-- Evaluations that fail are not remembered. -/
  failed : ∀ c : Call n, p.model.isEvaluable = false →
    (after p (calls ++ [c])).memo.runs = (after p calls).memo.runs + 1

/-- The last entry of the journal is the last point asked about, or there is none. -/
theorem getLast?_journal (p : Problem Float n m) (points : List (Vec Float n)) :
    (Memo.journal sameKeys pointKey p.energyAndGradient {} points).getLast? =
      if p.model.isEvaluable then points.getLast? else none := by
  split
  next hp =>
    refine Memo.getLast?_journal_of_ok sameKeys_pointKey_iff pointKey_injective (fun a e h => ?_) points
    rw [Problem.energyAndGradient, if_pos hp] at h
    cases h
  next hp =>
    rw [Memo.journal_of_error (fun a b h => ?_) {} points, List.getLast?_nil]
    rw [Problem.energyAndGradient, if_neg hp] at h
    cases h

theorem answers_after (p : Problem Float n m) (s : Scheme) (calls : List (Call n)) :
    Answers p s calls := by
  obtain ⟨hproblem, hmemo⟩ := memo_after p calls
  have hlaw := fun a => Memo.callLaw_after_calls sameKeys_pointKey_iff p.energyAndGradient
    (calls.map Call.point) a
  rw [← hmemo] at hlaw
  have hanswer : ∀ a, ((after p calls).evaluate a).1 = p.energyAndGradient a := by
    intro a
    rw [evaluate, hproblem]
    exact (hlaw a).answer_eq fun b _ hkey => by rw [pointKey_injective hkey]
  have hnext : ∀ c : Call n, (after p (calls ++ [c])).memo =
      ((after p calls).memo.ask sameKeys pointKey p.energyAndGradient c.point).2 := by
    intro c
    rw [after_concat, next_eq, evaluate, hproblem]
  have hlast := getLast?_journal p (calls.map Call.point)
  exact {
    energy := by
      intro a
      have henergy : ((after p calls).energy a).1 = (p.energyAndGradient a).map Prod.fst :=
        congrArg (Except.map Prod.fst) (hanswer a)
      rw [henergy, Problem.energyAndGradient]
      split <;> rfl
    gradient := by
      intro a
      have hgradient : ((after p calls).gradient a).1 = (p.energyAndGradient a).map Prod.snd :=
        congrArg (Except.map Prod.snd) (hanswer a)
      rw [hgradient, Problem.energyAndGradient]
      split <;> rfl
    evaluated := by
      intro c hne
      rw [hnext]
      refine ((hlaw c.point).evaluated fun b hb hkey => ?_).2
      rw [hlast, pointKey_injective hkey] at hb
      split at hb
      next => exact hne hb
      next => cases hb
    remembered := by
      intro c heq hp
      rw [hnext, (hlaw c.point).remembered c.point (by rw [hlast, if_pos hp, heq]) rfl]
    failed := by
      intro c hp
      rw [hnext]
      refine ((hlaw c.point).evaluated fun b hb => ?_).2
      rw [hlast, hp] at hb
      cases hb }

/-- The type of the first of some arrays, if there is one. -/
def firstType {δ : Type} : List (StoredArray δ) → Except Unit δ
  | [] => .error ()
  | a :: _ => .ok a.type

/-- Two types with one text are not told apart. -/
example :
    ((Memo.after sameKeys (StoredArray.keys fun _ : Bool => "|V8") firstType {}
      [[⟨[1], true, []⟩]]).ask sameKeys (StoredArray.keys fun _ : Bool => "|V8") firstType
        [⟨[1], false, []⟩]).1 = .ok true := rfl

end Objective

end GibbsNewton.Equilibrium
