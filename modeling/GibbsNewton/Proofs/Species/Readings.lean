import GibbsNewton.Proofs.Species.Calls

/-!
# What a library of species remembers

A library is a cache of files that may be written, changed and removed at any time between two calls.
Its history is told by a journal: the readings that succeeded, in order, each with the file and the text that
was read.  What the library remembers of a file are the species in the last of its readings in the journal; a
call answers from the table there, its own reading included if it makes one, and never from anything else.

## Main definitions

* `SpeciesLibrary.Event`, `SpeciesLibrary.after` — what may happen to files and library, and the library
  after a history.
* `SpeciesLibrary.journal`, `SpeciesLibrary.IsLast` — the readings of a history, and the last of a file.
* `SpeciesLibrary.Remembers` — what is remembered are the last readings of a journal.
* `SpeciesLibrary.CallLaw` — what a call does after a history.

## Main results

* `SpeciesLibrary.Remembers.next`, `SpeciesLibrary.Remembers.foldl` — one event, and a history of them.
* `SpeciesLibrary.callLaw_after` — **calls after any history.**
-/

namespace GibbsNewton.SpeciesLibrary

variable {κ : Type}

/-! ### Journals -/

/-- The reading numbered `r` is the last one of a file, and `text` is what was read. -/
def IsLast (rs : List (Reading κ)) (key : κ) (r : ℕ) (text : String) : Prop :=
  rs[r]? = some ⟨key, text⟩ ∧ ∀ r' x, r < r' → rs[r']? = some x → x.key ≠ key

theorem IsLast.lt_length {rs : List (Reading κ)} {key : κ} {r : ℕ} {text : String}
    (h : IsLast rs key r text) : r < rs.length :=
  (List.getElem?_eq_some_iff.mp h.1).1

/-- One more reading is the last one of its file, and changes nothing for the other files. -/
theorem isLast_concat {rs : List (Reading κ)} {x : Reading κ} {key : κ} {r : ℕ} {text : String} :
    IsLast (rs ++ [x]) key r text ↔
      x = ⟨key, text⟩ ∧ r = rs.length ∨ x.key ≠ key ∧ IsLast rs key r text := by
  have hlast : (rs ++ [x])[rs.length]? = some x := List.getElem?_concat_length
  constructor
  · rintro ⟨hr, hlater⟩
    rcases Nat.lt_trichotomy r rs.length with hlt | rfl | hgt
    · refine .inr ⟨hlater rs.length x hlt hlast, ?_, fun r' y hr' hy => ?_⟩
      · rwa [List.getElem?_append_left hlt] at hr
      · have hlt' : r' < rs.length := (List.getElem?_eq_some_iff.mp hy).1
        exact hlater r' y hr' (by rwa [List.getElem?_append_left hlt'])
    · exact .inl ⟨Option.some.inj (hlast.symm.trans hr), rfl⟩
    · rw [List.getElem?_eq_none (by rw [List.length_append, List.length_singleton]; omega)] at hr
      cases hr
  · have hlt_of_some : ∀ {r' y}, (rs ++ [x])[r']? = some y → r' < rs.length ∨ r' = rs.length := by
      intro r' y hy
      have hlt := (List.getElem?_eq_some_iff.mp hy).1
      rw [List.length_append, List.length_singleton] at hlt
      omega
    rintro (⟨rfl, rfl⟩ | ⟨hne, hr⟩)
    · refine ⟨hlast, fun r' y hr' hy => ?_⟩
      rcases hlt_of_some hy with h | h <;> omega
    · refine ⟨by rw [List.getElem?_append_left hr.lt_length]; exact hr.1, fun r' y hr' hy => ?_⟩
      rcases hlt_of_some hy with hlt | rfl
      · exact hr.2 r' y hr' (by rwa [List.getElem?_append_left hlt] at hy)
      · rwa [← Option.some.inj (hlast.symm.trans hy)]

/-! ### Histories -/

variable [DecidableEq κ]

/-- What may happen to the files and to a library. -/
inductive Event
  /-- A file is created or changed. -/
  | write (path text : String)
  /-- A file is removed, if it is there. -/
  | remove (path : String)
  /-- The standing path is set or unset. -/
  | setStanding (path : Option String)
  /-- The library is called. -/
  | call (path : Option String) (q : Query)

/-- The library after an event. -/
def next (l : SpeciesLibrary κ) : Event → SpeciesLibrary κ
  | .write path text => l.write path text
  | .remove path => (l.remove? path).getD l
  | .setStanding path => l.setStanding path
  | .call path q => (l.call path q).2

theorem exists_remove?_getD (l : SpeciesLibrary κ) (path : String) :
    ∃ files, (l.remove? path).getD l = { l with files } := by
  unfold remove?
  dsimp only
  split
  · exact ⟨_, rfl⟩
  · exact ⟨l.files, rfl⟩

theorem resolve_next (l : SpeciesLibrary κ) (e : Event) : (l.next e).resolve = l.resolve := by
  cases e with
  | write path text => rfl
  | remove path =>
    obtain ⟨files, hfiles⟩ := l.exists_remove?_getD path
    rw [next, hfiles]
  | setStanding path => rfl
  | call path q =>
    rw [next]
    cases hq : q.needsFile with
    | false => rw [call_of_not_needsFile hq]
    | true =>
      have hout := outcome_call l path hq
      generalize l.reading? path q = x, l.call path q = out at hout ⊢
      cases hout
      all_goals rfl

/-- The reading that an event makes, if it makes one that succeeds. -/
def made? (l : SpeciesLibrary κ) : Event → Option (Reading κ)
  | .call path q => l.reading? path q
  | _ => none

/-- The readings made by a history, in order. -/
def journal (l : SpeciesLibrary κ) : List Event → List (Reading κ)
  | [] => []
  | e :: es => (l.made? e).toList ++ (l.next e).journal es

/-- The library after a history that begins with no files and nothing remembered. -/
def after (resolve : String → κ) (es : List Event) : SpeciesLibrary κ := es.foldl next { resolve }

/-- Paths stand for the same files throughout. -/
theorem resolve_foldl_next (l : SpeciesLibrary κ) (es : List Event) :
    (es.foldl next l).resolve = l.resolve := by
  induction es generalizing l with
  | nil => rfl
  | cons e es ih => rw [List.foldl_cons, ih, resolve_next]

/-- The library remembers the species of the last reading of every file in a journal, and nothing else. -/
structure Remembers (l : SpeciesLibrary κ) (rs : List (Reading κ)) : Prop where
  readings_eq : l.readings = rs.length
  exists_describes : ∀ x ∈ rs, ∃ species, Species.Describes x.text species
  lookup_eq_some_iff : ∀ (key : κ) (cat : Catalogue), l.remembered.lookup key = some cat ↔
    ∃ text, IsLast rs key cat.reading text ∧ Species.Describes text cat.species

namespace Remembers

variable {l : SpeciesLibrary κ} {rs : List (Reading κ)}

theorem empty (resolve : String → κ) : ({ resolve } : SpeciesLibrary κ).Remembers [] where
  readings_eq := rfl
  exists_describes := nofun
  lookup_eq_some_iff key cat := by
    constructor
    · exact nofun
    · rintro ⟨text, hlast, -⟩
      exact absurd hlast.lt_length (Nat.not_lt_zero _)

/-- A library that only differs in its files remembers the same. -/
theorem of_eq (h : l.Remembers rs) {l' : SpeciesLibrary κ} (hreadings : l'.readings = l.readings)
    (hremembered : l'.remembered = l.remembered) : l'.Remembers rs where
  readings_eq := hreadings.trans h.readings_eq
  exists_describes := h.exists_describes
  lookup_eq_some_iff key cat := by
    rw [hremembered]
    exact h.lookup_eq_some_iff key cat

/-- Nothing is remembered of a file exactly when the journal has no reading of it. -/
theorem lookup_eq_none_iff (h : l.Remembers rs) (key : κ) :
    l.remembered.lookup key = none ↔ ¬∃ r text, IsLast rs key r text := by
  constructor
  · rintro hnone ⟨r, text, hlast⟩
    obtain ⟨species, hspecies⟩ := h.exists_describes _ (List.mem_of_getElem? hlast.1)
    have hsome := (h.lookup_eq_some_iff key ⟨r, species⟩).mpr ⟨text, hlast, hspecies⟩
    rw [hnone] at hsome
    cases hsome
  · intro hnot
    by_contra hsome
    obtain ⟨cat, hcat⟩ := Option.ne_none_iff_exists'.mp hsome
    obtain ⟨text, hlast, -⟩ := (h.lookup_eq_some_iff key cat).mp hcat
    exact hnot ⟨cat.reading, text, hlast⟩

/-- A reading replaces the entry of its file. -/
theorem remember (h : l.Remembers rs) {key : κ} {text : String} {species : List Species}
    (hparse : parse text = .ok species) :
    (l.remember key ⟨l.readings, species⟩).Remembers (rs ++ [⟨key, text⟩]) where
  readings_eq := by
    rw [List.length_append, ← h.readings_eq]
    rfl
  exists_describes x hx := by
    rcases List.mem_append.mp hx with hmem | hmem
    · exact h.exists_describes x hmem
    · obtain rfl := List.mem_singleton.mp hmem
      exact ⟨species, parse_eq_ok_iff.mp hparse⟩
  lookup_eq_some_iff key' cat := by
    change (replace l.remembered key ⟨l.readings, species⟩).lookup key' = some cat ↔ _
    rw [h.readings_eq]
    by_cases hkey : key = key'
    · -- the new reading is the last one of its file
      subst hkey
      rw [lookup_replace_self]
      constructor
      · intro hcat
        obtain rfl := Option.some.inj hcat
        exact ⟨text, isLast_concat.mpr (.inl ⟨rfl, rfl⟩), parse_eq_ok_iff.mp hparse⟩
      · rintro ⟨text', hlast, hspecies⟩
        obtain ⟨reading, species'⟩ := cat
        obtain ⟨htext, hreading⟩ | ⟨hne, -⟩ := isLast_concat.mp hlast
        · obtain ⟨-, rfl⟩ := (Reading.mk.injEq ..).mp htext
          have heq := Except.ok.inj (hparse.symm.trans (parse_eq_ok_iff.mpr hspecies))
          exact congrArg some ((Catalogue.mk.injEq ..).mpr ⟨hreading.symm, heq⟩)
        · exact absurd rfl hne
    · -- it is none of another file
      rw [lookup_replace_of_ne _ (Ne.symm hkey), h.lookup_eq_some_iff]
      have hiff : ∀ r text', IsLast (rs ++ [⟨key, text⟩]) key' r text' ↔ IsLast rs key' r text' := by
        intro r text'
        rw [isLast_concat]
        constructor
        · rintro (⟨hx, -⟩ | ⟨-, hlast⟩)
          · exact absurd (congrArg Reading.key hx) hkey
          · exact hlast
        · exact fun hlast => .inr ⟨hkey, hlast⟩
      simp only [hiff]

/-- A call leaves the library remembering its own reading too. -/
theorem call (h : l.Remembers rs) (path : Option String) (q : Query) :
    (l.call path q).2.Remembers (rs ++ (l.reading? path q).toList) := by
  cases hq : q.needsFile with
  | false =>
    have hnone : l.reading? path q = none := by
      simp [reading?, hq]
    rw [call_of_not_needsFile hq, hnone]
    simpa using h
  | true =>
    -- one way of five makes a reading, the others leave the library as it is
    have hout := outcome_call l path hq
    generalize l.reading? path q = x, l.call path q = out at hout ⊢
    cases hout with
    | noPath => simpa using h
    | remembered => simpa using h
    | noFile => simpa using h
    | unread => simpa using h
    | read hkey reads file parsed => exact h.remember parsed

/-- **One event.** -/
theorem next (h : l.Remembers rs) (e : Event) : (l.next e).Remembers (rs ++ (l.made? e).toList) := by
  cases e with
  | write path text =>
    simp only [made?, Option.toList_none, List.append_nil]
    exact h.of_eq rfl rfl
  | remove path =>
    obtain ⟨files, hfiles⟩ := l.exists_remove?_getD path
    simp only [made?, Option.toList_none, List.append_nil, SpeciesLibrary.next, hfiles]
    exact h.of_eq rfl rfl
  | setStanding path =>
    simp only [made?, Option.toList_none, List.append_nil]
    exact h.of_eq rfl rfl
  | call path q => exact h.call path q

/-- **A history.** -/
theorem foldl (h : l.Remembers rs) (es : List Event) :
    (es.foldl SpeciesLibrary.next l).Remembers (rs ++ l.journal es) := by
  induction es generalizing l rs with
  | nil => simpa [journal] using h
  | cons e es ih =>
    rw [List.foldl_cons, journal, ← List.append_assoc]
    exact ih (h.next e)

end Remembers

/-! ### Calls after a history -/

/-- What a library does with a call after a history whose readings are `rs`. -/
structure CallLaw (l : SpeciesLibrary κ) (rs : List (Reading κ)) (path : Option String) (q : Query) :
    Prop where
  /-- Without a path it fails. -/
  noPath : l.key? path = none → (l.call path q).1 = .error (.load .noPath)
  /-- The files matter exactly when the journal has no reading of the file or a fresh one is asked
  for. -/
  consults : l.Consults path q ↔ ∃ key, l.key? path = some key ∧
    (q.reloads = true ∨ ¬∃ r text, IsLast rs key r text)
  /-- Where they matter, a file that describes species is read as it is now, and the answer is the one from
  its table. -/
  read : ∀ key text table species, l.key? path = some key → l.Consults path q →
    l.files.lookup key = some text → Species.HasTable text table → Species.AreRecords table species →
      l.reading? path q = some ⟨key, text⟩ ∧ q.Answered table rs.length (l.call path q).1
  /-- A file that is missing makes the call fail. -/
  missing : ∀ key, l.key? path = some key → l.Consults path q → l.files.lookup key = none →
    (l.call path q).1 = .error (.load .noFile)
  /-- So does one that describes no species. -/
  undescribed : ∀ key text, l.key? path = some key → l.Consults path q →
    l.files.lookup key = some text → (∀ species, ¬Species.Describes text species) →
      ∃ e, (l.call path q).1 = .error (.load e)
  /-- Texts that are no JSON texts or have a defective record are such files. -/
  unreadable : ∀ key text, l.key? path = some key → l.Consults path q →
    l.files.lookup key = some text → Species.Unreadable text →
      ∃ e, (l.call path q).1 = .error (.load e)
  /-- A call that fails to load the species reads nothing and changes nothing. -/
  failed : ∀ e, (l.call path q).1 = .error (.load e) →
    l.reading? path q = none ∧ (l.call path q).2 = l
  /-- Every other call answers from the table in the last reading of the file, be it its own. -/
  answers : (∀ e, (l.call path q).1 ≠ .error (.load e)) →
    ∃ key r text table, l.key? path = some key ∧
      IsLast (rs ++ (l.reading? path q).toList) key r text ∧ Species.HasTable text table ∧
        q.Answered table r (l.call path q).1
  /-- A file that was read before needs no fresh reading, whatever has become of it. -/
  kept : ∀ key r text table, l.key? path = some key → q.reloads = false → IsLast rs key r text →
    Species.HasTable text table → q.Answered table r (l.call path q).1 ∧ (l.call path q).2 = l
  /-- What is remembered of other files stays. -/
  others : ∀ key, l.key? path ≠ some key →
    (l.call path q).2.remembered.lookup key = l.remembered.lookup key

theorem Remembers.callLaw {l : SpeciesLibrary κ} {rs : List (Reading κ)} (h : l.Remembers rs)
    (path : Option String) {q : Query} (hq : q.needsFile = true) : l.CallLaw rs path q := by
  have hundescribed : ∀ key text, l.key? path = some key → l.Consults path q →
      l.files.lookup key = some text → (∀ species, ¬Species.Describes text species) →
        ∃ e, (l.call path q).1 = .error (.load e) := by
    intro key text hkey hconsults hfile hnot
    have hreads := hconsults.reads hq hkey
    cases hparse : parse text with
    | error e => exact ⟨e, by rw [call_of_unparsed hq hkey hreads hfile hparse]⟩
    | ok species => exact absurd (parse_eq_ok_iff.mp hparse) (hnot species)
  exact {
    noPath := by
      intro hkey
      rw [call_of_noPath hq hkey]
    consults := by
      simp only [consults_iff hq, Reads, h.lookup_eq_none_iff]
    read := by
      intro key text table species hkey hconsults hfile htable hspecies
      have hreads := hconsults.reads hq hkey
      have hparse : parse text = .ok species := parse_eq_ok_iff.mpr ⟨table, htable, hspecies⟩
      rw [reading?_of_reads hq hkey hreads, hfile, call_of_parsed hq hkey hreads hfile hparse,
        ← h.readings_eq, Option.bind_some, hparse]
      exact ⟨rfl, Catalogue.answered_reply (c := ⟨l.readings, species⟩) hspecies q⟩
    missing := by
      intro key hkey hconsults hfile
      rw [call_of_noFile hq hkey (hconsults.reads hq hkey) hfile]
    undescribed := hundescribed
    unreadable := by
      intro key text hkey hconsults hfile hunreadable
      exact hundescribed key text hkey hconsults hfile hunreadable.not_describes
    failed := by
      intro e he
      have hout := outcome_call l path hq
      generalize l.reading? path q = x, l.call path q = out at hout he ⊢
      cases hout with
      | noPath => exact ⟨rfl, rfl⟩
      | remembered => exact absurd he (Catalogue.reply_ne_load _ q e)
      | noFile => exact ⟨rfl, rfl⟩
      | unread => exact ⟨rfl, rfl⟩
      | read => exact absurd he (Catalogue.reply_ne_load _ q e)
    answers := by
      intro hok
      have hout := outcome_call l path hq
      generalize l.reading? path q = x, l.call path q = out at hout hok ⊢
      cases hout with
      | noPath => exact absurd rfl (hok _)
      | noFile => exact absurd rfl (hok _)
      | unread => exact absurd rfl (hok _)
      | @remembered key cat hkey reloads entry =>
        obtain ⟨text, hlast, table, htable, hspecies⟩ := (h.lookup_eq_some_iff key cat).mp entry
        refine ⟨key, cat.reading, text, table, hkey, ?_, htable, Catalogue.answered_reply hspecies q⟩
        simpa using hlast
      | @read key text species hkey reads file parsed =>
        obtain ⟨table, htable, hspecies⟩ := parse_eq_ok_iff.mp parsed
        refine ⟨key, rs.length, text, table, hkey, isLast_concat.mpr (.inl ⟨rfl, rfl⟩), htable, ?_⟩
        rw [← h.readings_eq]
        exact Catalogue.answered_reply (c := ⟨l.readings, species⟩) hspecies q
    kept := by
      intro key r text table hkey hreload hlast htable
      obtain ⟨species, table', htable', hspecies⟩ :=
        h.exists_describes _ (List.mem_of_getElem? hlast.1)
      obtain rfl := htable.unique htable'
      have hentry := (h.lookup_eq_some_iff key ⟨r, species⟩).mpr ⟨text, hlast, table, htable, hspecies⟩
      rw [call_of_remembered hq hkey hreload hentry]
      exact ⟨Catalogue.answered_reply (c := ⟨r, species⟩) hspecies q, rfl⟩
    others := by
      intro key hkey
      have hout := outcome_call l path hq
      generalize l.reading? path q = x, l.call path q = out at hout ⊢
      cases hout with
      | noPath => rfl
      | remembered => rfl
      | noFile => rfl
      | unread => rfl
      | @read key' text species hkey' reads file parsed =>
        have hne : key ≠ key' := fun heq => hkey (heq ▸ hkey')
        exact lookup_replace_of_ne _ hne _ }

end GibbsNewton.SpeciesLibrary
