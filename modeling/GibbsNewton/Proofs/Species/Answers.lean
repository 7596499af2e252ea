import GibbsNewton.Species.Query
import GibbsNewton.Proofs.Species.Records

/-!
# Answers to queries on species

What is answered to a query in terms of the table of the file, without the species that were read from it:
the names are the keys of the table, a species is what the record of its name says, and the species of a
phase are those whose records name it.

## Main definitions

* `Species.inPhase` — a record is that of a species of a phase.
* `Query.Answered table reading q answer` — the answer to a query from the table of a file.

## Main results

* `Catalogue.answered_reply` — **the reply to a query is the answer from the table.**
* `Query.Answered.unique` — there is one such answer.
* `Catalogue.reply_ne_load` — an answer from species that are there is no failure to load them.
-/

namespace GibbsNewton

/-! ### Phases -/

/-- A record is that of a species of a phase: it names the phase, or it names none and the phase is the
gas. -/
def Species.inPhase (phase : String) (data : Json) : Bool :=
  match data.field? "phase" with
  | some (.text given) => given == phase
  | some _ => false
  | none => "gas" == phase

/-- A species with its name is what an entry of the table says. -/
def Species.IsNamedEntry (entry : String × Json) (named : String × Species) : Prop :=
  named.1 = entry.1 ∧ IsEntry entry named.2

theorem Species.isNamedEntry_rightUnique : Relator.RightUnique IsNamedEntry := by
  intro entry named named' h h'
  exact Prod.ext (h.1.trans h'.1.symm) (isEntry_rightUnique h.2 h'.2)

/-! ### Answers -/

/-- The answer to a query from the table of a file, where the species are from a reading. -/
inductive Query.Answered (table : List (String × Json)) (reading : Nat) :
    Query → Except QueryError Reply → Prop
  /-- All species, in the order of the table. -/
  | load {reload : Bool} {species : List Species} (records : Species.AreRecords table species) :
      Answered table reading (.load reload) (.ok (.loaded { reading, species }))
  /-- The names are the keys of the table. -/
  | list : Answered table reading .list (.ok (.names (table.map Prod.fst)))
  /-- The species of a phase are those whose records name it, with their names. -/
  | phase {phase : String} {entries : List (String × Species)}
      (records : List.Forall₂ Species.IsNamedEntry
        (table.filter fun entry => Species.inPhase phase entry.2) entries) :
      Answered table reading (.phase phase) (.ok (.species entries))
  /-- The record of a species is the one of its name. -/
  | record {name : String} {data : Json} {s : Species} (found : table.lookup name = some data)
      (record : Species.IsEntry (name, data) s) :
      Answered table reading (.record name) (.ok (.record s))
  /-- A name without a record is unknown. -/
  | unknown {name : String} (absent : table.lookup name = none) :
      Answered table reading (.record name)
        (.error (.unknown { name, available := table.map Prod.fst }))
  /-- What is asked about coefficients, formulas and potentials is computed from the species. -/
  | computed {q : Query} {species : List Species} (hload : ∀ reload, q ≠ .load reload) (hlist : q ≠ .list)
      (hphase : ∀ phase, q ≠ .phase phase) (hrecord : ∀ name, q ≠ .record name)
      (records : Species.AreRecords table species) :
      Answered table reading q (Catalogue.reply { reading, species } q)

namespace Catalogue

variable {c : Catalogue} {table : List (String × Json)}

/-- The phase of a species is tested as that of its record. -/
theorem phase_eq_inPhase {entry : String × Json} {named : String × Species}
    (h : Species.IsNamedEntry entry named) (phase : String) :
    (match named.2.phase with
      | .text given => given == phase
      | _ => false) = Species.inPhase phase entry.2 := by
  obtain ⟨key, data⟩ := entry
  obtain ⟨-, fields, rfl, hrecord⟩ := h
  rw [hrecord.phase, Species.inPhase, Json.field?]
  cases fields.lookup "phase" with
  | none => rfl
  | some given => cases given <;> rfl

theorem forall₂_entries (h : Species.AreRecords table c.species) :
    List.Forall₂ Species.IsNamedEntry table c.entries := by
  rw [entries, List.forall₂_map_right_iff]
  refine h.imp fun entry s hs => ⟨?_, hs⟩
  obtain ⟨fields, -, hrecord⟩ := hs
  exact hrecord.name_eq

/-- The species of a phase are those whose records name it. -/
theorem forall₂_ofPhase (h : Species.AreRecords table c.species) (phase : String) :
    List.Forall₂ Species.IsNamedEntry (table.filter fun entry => Species.inPhase phase entry.2)
      (c.ofPhase phase) := by
  refine List.rel_filter ?_ (forall₂_entries h)
  intro entry named hnamed
  exact Bool.eq_iff_iff.mp (phase_eq_inPhase hnamed phase).symm

/-- **The reply to a query is the answer from the table.** -/
theorem answered_reply (h : Species.AreRecords table c.species) (q : Query) :
    q.Answered table c.reading (c.reply q) := by
  cases q with
  | load reload => exact .load h
  | list =>
    rw [reply, names_eq h]
    exact .list
  | phase phase => exact .phase (forall₂_ofPhase h phase)
  | record name =>
    cases hdata : table.lookup name with
    | none =>
      rw [reply, get_eq_error h hdata]
      exact .unknown hdata
    | some data =>
      obtain ⟨s, hs, hentry⟩ := get_eq_ok h hdata
      rw [reply, hs]
      exact .record hdata hentry
  | coefficients | matrix | potentials => exact .computed nofun nofun nofun nofun h

theorem mapError_unknown_ne_load {α : Type} (x : Except UnknownSpecies α) (e : LoadError) :
    x.mapError QueryError.unknown ≠ .error (.load e) := by
  intro h
  cases x with
  | error e' => cases h
  | ok a => cases h

/-- What is answered from species that are there is no failure to load them. -/
theorem reply_ne_load (c : Catalogue) (q : Query) (e : LoadError) : c.reply q ≠ .error (.load e) := by
  intro h
  cases q with
  | load reload => cases h
  | list => cases h
  | phase phase => cases h
  | record name =>
    obtain hget | ⟨s, -, h⟩ := Except.eq_or_exists_of_bind_eq_error h
    · exact mapError_unknown_ne_load _ _ hget
    · cases h
  | coefficients name t =>
    obtain hget | ⟨s, -, h⟩ := Except.eq_or_exists_of_bind_eq_error h
    · exact mapError_unknown_ne_load _ _ hget
    · cases hfit : s.coefficients? t with
      | none =>
        rw [hfit] at h
        cases h
      | some fit =>
        rw [hfit] at h
        cases h
  | matrix names elements =>
    obtain hget | ⟨ss, -, h⟩ := Except.eq_or_exists_of_bind_eq_error h
    · exact mapError_unknown_ne_load _ _ hget
    · cases h
  | potentials names t =>
    obtain hget | ⟨ss, -, h⟩ := Except.eq_or_exists_of_bind_eq_error h
    · exact mapError_unknown_ne_load _ _ hget
    · cases hpot : Species.potentials ss t with
      | error e' =>
        rw [hpot] at h
        cases h
      | ok values =>
        rw [hpot] at h
        cases h

end Catalogue

/-- **There is one answer** to a query from the table of a file. -/
theorem Query.Answered.unique {table : List (String × Json)} {reading : Nat} {q : Query}
    {answer answer' : Except QueryError Reply} (h : q.Answered table reading answer)
    (h' : q.Answered table reading answer') : answer = answer' := by
  cases h with
  | load records =>
    cases h' with
    | load records' => rw [records.unique records']
    | computed hload => exact absurd rfl (hload _)
  | list =>
    cases h' with
    | list => rfl
    | computed _ hlist => exact absurd rfl hlist
  | phase records =>
    cases h' with
    | phase records' => rw [Species.isNamedEntry_rightUnique.forall₂ records records']
    | computed _ _ hphase => exact absurd rfl (hphase _)
  | record found record =>
    cases h' with
    | record found' record' =>
      obtain rfl := Option.some.inj (found.symm.trans found')
      rw [Species.isEntry_rightUnique record record']
    | unknown absent => cases found.symm.trans absent
    | computed _ _ _ hrecord => exact absurd rfl (hrecord _)
  | unknown absent =>
    cases h' with
    | record found => cases absent.symm.trans found
    | unknown => rfl
    | computed _ _ _ hrecord => exact absurd rfl (hrecord _)
  | computed hload hlist hphase hrecord records =>
    cases h' with
    | load => exact absurd rfl (hload _)
    | list => exact absurd rfl hlist
    | phase => exact absurd rfl (hphase _)
    | record => exact absurd rfl (hrecord _)
    | unknown => exact absurd rfl (hrecord _)
    | computed _ _ _ _ records' => rw [records.unique records']

end GibbsNewton
