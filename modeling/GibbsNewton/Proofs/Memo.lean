import GibbsNewton.Memo
import Mathlib.Data.List.Induction

/-!
# What a memo remembers

A memo stands between a function and those who ask it.  Its history is told by a journal: the arguments at
which the function was evaluated with success, in order.  What the memo remembers is the last entry of the
journal with the answer to it.  An argument whose key is that of the last entry is given the answer to the
last entry; at every other argument the function is evaluated.  An evaluation that fails makes no entry.

The function has no effects besides its answer.  Keys are compared as they are, but two arguments may have
one key; where the key of the last entry tells it from the argument, the answer is the function's own.

## Main definitions

* `Memo.after`, `Memo.noted?`, `Memo.journal` — the memo after some calls, and the entries that they make.
* `Memo.Remembers` — what is remembered is the last entry of a journal.
* `Memo.Outcome` — the three ways a call can go.
* `Memo.CallLaw` — what one more call does.

## Main results

* `Memo.Remembers.outcome` — **what a call can do.**
* `Memo.Remembers.foldl` — calls in order.
* `Memo.callLaw_after_calls` — **a call after any calls.**
* `Memo.CallLaw.answer_eq` — when the answer is the function's own.
* `Memo.getLast?_journal_of_ok`, `Memo.journal_of_error` — the journals of functions that never fail, and
  of functions that always do.
-/

namespace GibbsNewton.Memo

variable {κ γ β ε : Type}

/-! ### Histories -/

section

variable (same : κ → κ → Bool) (key : γ → κ) (f : γ → Except ε β)

/-- The memo after calls in order. -/
def after (m : Memo κ β) (calls : List γ) : Memo κ β :=
  calls.foldl (fun m a => (m.ask same key f a).2) m

/-- The argument of a call, if the call evaluates the function and succeeds. -/
def noted? (m : Memo κ β) (a : γ) : Option γ :=
  match f a with
  | .ok _ => if (m.ask same key f a).2.runs = m.runs then none else some a
  | .error _ => none

/-- The arguments at which calls in order evaluate the function with success. -/
def journal (m : Memo κ β) : List γ → List γ
  | [] => []
  | a :: calls => (m.noted? same key f a).toList ++ journal (m.ask same key f a).2 calls

theorem after_concat (m : Memo κ β) (calls : List γ) (a : γ) :
    after same key f m (calls ++ [a]) = ((after same key f m calls).ask same key f a).2 := by
  rw [after, List.foldl_append]
  rfl

theorem journal_concat (m : Memo κ β) (calls : List γ) (a : γ) :
    journal same key f m (calls ++ [a]) =
      journal same key f m calls ++ ((after same key f m calls).noted? same key f a).toList := by
  induction calls generalizing m with
  | nil => simp [journal, after]
  | cons b calls ih =>
    rw [List.cons_append, journal, ih, journal, List.append_assoc]
    rfl

theorem eq_of_noted?_eq_some {m : Memo κ β} {a b : γ} (h : m.noted? same key f a = some b) : a = b := by
  unfold noted? at h
  split at h
  next =>
    split at h
    next => cases h
    next => exact Option.some.inj h
  next => cases h

/-- Every entry of a journal is the argument of a call. -/
theorem mem_of_mem_journal {calls : List γ} {m : Memo κ β} {b : γ}
    (h : b ∈ journal same key f m calls) : b ∈ calls := by
  induction calls generalizing m with
  | nil => exact h
  | cons a calls ih =>
    rw [journal, List.mem_append, Option.mem_toList] at h
    rcases h with hnoted | hrest
    · exact eq_of_noted?_eq_some same key f hnoted ▸ List.mem_cons_self
    · exact List.mem_cons_of_mem _ (ih hrest)

/-- What is remembered is the last entry of a journal with the answer to it, and nothing as long as there
is no entry. -/
structure Remembers (m : Memo κ β) (entries : List γ) : Prop where
  nothing : entries.getLast? = none → m.last = none
  last : ∀ b, entries.getLast? = some b → ∃ c, f b = .ok c ∧ m.last = some (key b, c)

/-- The last entry, if there is one, has another key than the argument. -/
def Differs (entries : List γ) (a : γ) : Prop := ∀ b, entries.getLast? = some b → key b ≠ key a

/-- The ways a call can go. -/
inductive Outcome (m : Memo κ β) (entries : List γ) (a : γ) : Prop
  /-- The last entry has the key of the argument; its answer is given, and nothing changes. -/
  | remembered {b : γ} (last : entries.getLast? = some b) (key_eq : key b = key a)
      (ask : m.ask same key f a = (f b, m)) (entry : m.noted? same key f a = none)
  /-- The function is evaluated with success, which makes an entry. -/
  | evaluated (new : Differs key entries a) {c : β} (ok : f a = .ok c)
      (ask : m.ask same key f a = (f a, ⟨some (key a, c), m.runs + 1⟩))
      (entry : m.noted? same key f a = some a)
  /-- The function is evaluated and fails, and what is remembered stays. -/
  | failed (new : Differs key entries a) {e : ε} (error : f a = .error e)
      (ask : m.ask same key f a = (f a, ⟨m.last, m.runs + 1⟩))
      (entry : m.noted? same key f a = none)

/-- What a call does to a memo with a journal. -/
structure CallLaw (m : Memo κ β) (entries : List γ) (a : γ) : Prop where
  /-- If the key of the last entry is another one, the function is evaluated, and then once, and the
  answer is its own. -/
  evaluated : Differs key entries a →
    (m.ask same key f a).1 = f a ∧ (m.ask same key f a).2.runs = m.runs + 1
  /-- Otherwise the answer is that to the last entry, and the memo stays as it is. -/
  remembered : ∀ b, entries.getLast? = some b → key b = key a → m.ask same key f a = (f b, m)
  /-- A call that fails leaves what is remembered, and the argument of the last entry is still answered
  without an evaluation. -/
  failed : ∀ e, (m.ask same key f a).1 = .error e → (m.ask same key f a).2.last = m.last ∧
    ∀ b, entries.getLast? = some b →
      (m.ask same key f a).2.ask same key f b = (f b, (m.ask same key f a).2)

end

theorem Remembers.empty (key : γ → κ) (f : γ → Except ε β) : ({} : Memo κ β).Remembers key f [] :=
  ⟨fun _ => rfl, nofun⟩

/-! ### One call -/

variable {same : κ → κ → Bool} {key : γ → κ} {f : γ → Except ε β} {m : Memo κ β} {entries : List γ}

/-- The answer is the function's own, unless the last entry has the key of the argument and another
answer. -/
theorem CallLaw.answer_eq {a : γ} (h : m.CallLaw same key f entries a)
    (hlast : ∀ b, entries.getLast? = some b → key b = key a → f b = f a) :
    (m.ask same key f a).1 = f a := by
  by_cases hnew : Differs key entries a
  · exact (h.evaluated hnew).1
  · unfold Differs at hnew
    push Not at hnew
    obtain ⟨b, hb, hkey⟩ := hnew
    rw [h.remembered b hb hkey]
    exact hlast b hb hkey

namespace Remembers

variable (h : m.Remembers key f entries) (hsame : ∀ a b, same (key a) (key b) = true ↔ key a = key b)

include h hsame

theorem ask_of_last {a b : γ} (hb : entries.getLast? = some b) (hkey : key b = key a) :
    m.ask same key f a = (f b, m) := by
  obtain ⟨c, hc, hlast⟩ := h.last b hb
  rw [ask, call, hlast, hc]
  exact if_pos ((hsame b a).mpr hkey)

theorem ask_of_differs {a : γ} (ha : Differs key entries a) :
    m.ask same key f a = m.run (key a) fun _ => f a := by
  cases hentries : entries.getLast? with
  | none =>
    rw [ask, call, h.nothing hentries]
  | some b =>
    obtain ⟨c, -, hlast⟩ := h.last b hentries
    rw [ask, call, hlast]
    exact if_neg (mt (hsame b a).mp (ha b hentries))

/-- **What a call can do.** -/
theorem outcome (a : γ) : m.Outcome same key f entries a := by
  by_cases ha : Differs key entries a
  · have hask := h.ask_of_differs hsame ha
    cases hf : f a with
    | ok c =>
      rw [run, hf] at hask
      refine .evaluated ha hf (hf ▸ hask) ?_
      rw [noted?, hf, hask]
      exact if_neg (Nat.succ_ne_self _)
    | error e =>
      rw [run, hf] at hask
      refine .failed ha hf (hf ▸ hask) ?_
      rw [noted?, hf]
  · unfold Differs at ha
    push Not at ha
    obtain ⟨b, hb, hkey⟩ := ha
    have hask := h.ask_of_last hsame hb hkey
    refine .remembered hb hkey hask ?_
    rw [noted?, hask]
    cases f a with
    | ok c => exact if_pos rfl
    | error e => rfl

/-- After a call the journal has its entry besides. -/
theorem next (a : γ) :
    (m.ask same key f a).2.Remembers key f (entries ++ (m.noted? same key f a).toList) := by
  cases h.outcome hsame a with
  | remembered last key_eq ask entry =>
    rw [ask, entry, Option.toList_none, List.append_nil]
    exact h
  | @evaluated new c ok ask entry =>
    rw [ask, entry, Option.toList_some]
    constructor
    · intro hnone
      rw [List.getLast?_concat] at hnone
      cases hnone
    · intro b hb
      rw [List.getLast?_concat] at hb
      obtain rfl := Option.some.inj hb
      exact ⟨c, ok, rfl⟩
  | failed new error ask entry =>
    rw [ask, entry, Option.toList_none, List.append_nil]
    exact ⟨h.nothing, h.last⟩

theorem callLaw (a : γ) : m.CallLaw same key f entries a := by
  cases h.outcome hsame a with
  | @remembered b last key_eq ask =>
    obtain ⟨c, hc, -⟩ := h.last b last
    exact {
      evaluated := fun hnew => absurd key_eq (hnew b last)
      remembered := fun b' hb' hkey => h.ask_of_last hsame hb' hkey
      failed := fun e he => by
        rw [ask, hc] at he
        cases he }
  | evaluated new ok ask =>
    exact {
      evaluated := fun _ => by
        rw [ask]
        exact ⟨rfl, rfl⟩
      remembered := fun b hb hkey => absurd hkey (new b hb)
      failed := fun e he => by
        rw [ask, ok] at he
        cases he }
  | failed new error ask =>
    -- only the number of evaluations has changed, so the journal still tells what is remembered
    have hkept : ({ last := m.last, runs := m.runs + 1 } : Memo κ β).Remembers key f entries :=
      ⟨h.nothing, h.last⟩
    exact {
      evaluated := fun _ => by
        rw [ask]
        exact ⟨rfl, rfl⟩
      remembered := fun b hb hkey => absurd hkey (new b hb)
      failed := fun e he => by
        rw [ask]
        exact ⟨rfl, fun b hb => hkept.ask_of_last hsame hb rfl⟩ }

end Remembers

/-! ### Calls in order -/

/-- After calls in order the journal has their entries besides. -/
theorem Remembers.foldl (hsame : ∀ a b, same (key a) (key b) = true ↔ key a = key b) (calls : List γ)
    (h : m.Remembers key f entries) :
    (after same key f m calls).Remembers key f (entries ++ journal same key f m calls) := by
  induction calls generalizing m entries with
  | nil =>
    rw [journal, List.append_nil]
    exact h
  | cons a calls ih =>
    rw [journal, ← List.append_assoc]
    exact ih (h.next hsame a)

theorem remembers_after (hsame : ∀ a b, same (key a) (key b) = true ↔ key a = key b)
    (f : γ → Except ε β) (calls : List γ) :
    (after same key f {} calls).Remembers key f (journal same key f {} calls) := by
  have h := (Remembers.empty key f).foldl hsame calls
  rwa [List.nil_append] at h

/-- **A call after any calls** to the memo of a function. -/
theorem callLaw_after_calls (hsame : ∀ a b, same (key a) (key b) = true ↔ key a = key b)
    (f : γ → Except ε β) (calls : List γ) (a : γ) :
    (after same key f {} calls).CallLaw same key f (journal same key f {} calls) a :=
  (remembers_after hsame f calls).callLaw hsame a

/-- If the function never fails and the keys tell its arguments apart, the last entry is the last call. -/
theorem getLast?_journal_of_ok (hsame : ∀ a b, same (key a) (key b) = true ↔ key a = key b)
    (hkey : Function.Injective key) (hf : ∀ a e, f a ≠ .error e) (calls : List γ) :
    (journal same key f {} calls).getLast? = calls.getLast? := by
  induction calls using List.reverseRecOn with
  | nil => rfl
  | append_singleton calls a ih =>
    rw [journal_concat, List.getLast?_concat]
    cases (remembers_after hsame f calls).outcome hsame a with
    | remembered last key_eq ask entry =>
      rw [entry, Option.toList_none, List.append_nil, last, hkey key_eq]
    | evaluated new ok ask entry => rw [entry, Option.toList_some, List.getLast?_concat]
    | failed new error => exact absurd error (hf a _)

/-- If the function always fails, there are no entries. -/
theorem journal_of_error (hf : ∀ a b, f a ≠ .ok b) (m : Memo κ β) (calls : List γ) :
    journal same key f m calls = [] := by
  induction calls generalizing m with
  | nil => rfl
  | cons a calls ih =>
    have hentry : m.noted? same key f a = none := by
      unfold noted?
      split
      next b hb => exact absurd hb (hf a b)
      next => rfl
    rw [journal, hentry, ih, Option.toList_none, List.append_nil]

end GibbsNewton.Memo
