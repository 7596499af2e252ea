/-!
# Remembering the last answer

A memo remembers the answer to the question asked last, so that asking the same question again
costs nothing.  Questions are told apart by keys.  An evaluation that fails is counted, and what was
remembered before stays.

## Main definitions

* `Memo` — what is remembered, and how often something was evaluated.
* `Memo.call` — asking a question.
* `Memo.ask` — asking what a function answers.
-/

namespace GibbsNewton

/-- The last answer with its key, and the number of evaluations. -/
structure Memo (κ β : Type) where
  /-- The key and the answer remembered. -/
  last : Option (κ × β) := none
  /-- The number of evaluations so far. -/
  runs : Nat := 0

namespace Memo

variable {κ γ β ε : Type}

/-- Evaluates and remembers the answer, unless there is none; the evaluation is told its number. -/
def run (m : Memo κ β) (key : κ) (evaluate : Nat → Except ε β) : Except ε β × Memo κ β :=
  let m := { m with runs := m.runs + 1 }
  match evaluate m.runs with
  | .ok b => (.ok b, { m with last := some (key, b) })
  | .error e => (.error e, m)

/-- The answer to the question with a key: the one remembered if its key is the same, else that of
an evaluation. -/
def call (same : κ → κ → Bool) (m : Memo κ β) (key : κ) (evaluate : Nat → Except ε β) :
    Except ε β × Memo κ β :=
  match m.last with
  | some (known, b) => if same known key then (.ok b, m) else m.run key evaluate
  | none => m.run key evaluate

/-- What a function answers to an argument, by the memo of the function. -/
def ask (same : κ → κ → Bool) (key : γ → κ) (f : γ → Except ε β) (m : Memo κ β) (a : γ) :
    Except ε β × Memo κ β :=
  m.call same (key a) fun _ => f a

end Memo

end GibbsNewton
