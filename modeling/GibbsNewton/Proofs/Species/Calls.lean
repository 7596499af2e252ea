import GibbsNewton.Proofs.Species.Answers

/-!
# Calls to a library of species

What one call does to a library, in terms of the path that it gives, the file there, and what is remembered
of the file.  A call about species that nothing is remembered of, or one that asks for a fresh reading,
looks at the file; every other call does not.  If the file cannot be read, at whichever of its records, the
library is as it was.

## Main definitions

* `Species.HasTable`, `Species.Describes` — the table in a text, and the species that it describes.
* `Species.Unreadable` — texts that describe none.
* `SpeciesLibrary.call` — what a library answers and becomes.
* `SpeciesLibrary.Reading`, `SpeciesLibrary.reading?` — the reading that a call makes.
* `SpeciesLibrary.Outcome` — the five ways a call can go.
* `SpeciesLibrary.Consults` — the files matter to a call.

## Main results

* `Species.Unreadable.not_describes` — one defective record is enough to leave a text unread.
* `SpeciesLibrary.outcome_call` — **what a call can do.**
* `SpeciesLibrary.consults_iff` — **when a file is looked at.**
-/

namespace GibbsNewton

/-! ### Texts -/

namespace Species

/-- The table in a text. -/
def HasTable (text : String) (table : List (String × Json)) : Prop :=
  ∃ file, Json.read? text = some file ∧ IsTable file table

theorem HasTable.unique {text : String} {table table' : List (String × Json)} (h : HasTable text table)
    (h' : HasTable text table') : table = table' := by
  obtain ⟨file, hfile, htable⟩ := h
  obtain ⟨file', hfile', htable'⟩ := h'
  obtain rfl := Option.some.inj (hfile.symm.trans hfile')
  exact htable.unique htable'

/-- The species that a text describes. -/
def Describes (text : String) (species : List Species) : Prop :=
  ∃ table, HasTable text table ∧ AreRecords table species

/-- A text that is no JSON text, or has a defective record anywhere. -/
inductive Unreadable (text : String) : Prop
  /-- It is no JSON text. -/
  | malformed (read : Json.read? text = none)
  /-- A record is defective. -/
  | defective {table : List (String × Json)} {name : String} {data : Json} (has : HasTable text table)
      (mem : (name, data) ∈ table) (record : Defective data)

/-- **One defective record is enough** to leave a text unread. -/
theorem Unreadable.not_describes {text : String} (h : Unreadable text) (species : List Species) :
    ¬Describes text species := by
  rintro ⟨table, htable, hspecies⟩
  cases h with
  | malformed hread =>
    obtain ⟨file, hfile, -⟩ := htable
    rw [hread] at hfile
    cases hfile
  | defective hhas hmem hrecord =>
    obtain rfl := hhas.unique htable
    exact hrecord.not_areRecords hmem hspecies

end Species

namespace SpeciesLibrary

variable {κ : Type} [DecidableEq κ]

/-- The species in a text. -/
def parse (text : String) : Except LoadError (List Species) :=
  match Json.read? text with
  | none => .error .malformed
  | some file => ((Species.readAll file).mapError .record).map (·.map Prod.fst)

theorem parse_eq_ok_iff {text : String} {species : List Species} :
    parse text = .ok species ↔ Species.Describes text species := by
  have hread : ∀ file, ((Species.readAll file).mapError LoadError.record).map (·.map Prod.fst) =
      .ok species ↔ ∃ table, Species.IsTable file table ∧ Species.AreRecords table species := by
    intro file
    rw [← Species.exists_readAll_eq_ok_iff]
    cases Species.readAll file with
    | error e => simp [Except.mapError, Except.map]
    | ok records => simp [Except.mapError, Except.map, eq_comm]
  unfold parse
  constructor
  · intro h
    cases hfile : Json.read? text with
    | none =>
      rw [hfile] at h
      cases h
    | some file =>
      rw [hfile] at h
      obtain ⟨table, htable, hspecies⟩ := (hread file).mp h
      exact ⟨table, ⟨file, hfile, htable⟩, hspecies⟩
  · rintro ⟨table, ⟨file, hfile, htable⟩, hspecies⟩
    rw [hfile]
    exact (hread file).mpr ⟨table, htable, hspecies⟩

/-! ### Entries -/

theorem lookup_replace_self {β : Type} (entries : List (κ × β)) (key : κ)
    (value : β) : (replace entries key value).lookup key = some value := by
  rw [replace, List.lookup_cons_self]

theorem lookup_replace_of_ne {β : Type} (entries : List (κ × β)) {key key' : κ}
    (h : key' ≠ key) (value : β) : (replace entries key value).lookup key' = entries.lookup key' := by
  have hfilter : (entries.filter fun entry => !(entry.1 == key)).lookup key' =
      entries.lookup key' := by
    induction entries with
    | nil => rfl
    | cons entry entries ih =>
      obtain ⟨k, v⟩ := entry
      by_cases hk : k = key
      · have hk' : (key' == k) = false := by simpa [hk] using h
        rw [List.filter_cons_of_neg (by simpa using hk), ih, List.lookup_cons, hk']
      · rw [List.filter_cons_of_pos (by simpa using hk), List.lookup_cons, List.lookup_cons, ih]
  have hne : (key' == key) = false := by simpa using h
  rw [replace, List.lookup_cons, hne, hfilter]

/-! ### Calls -/

/-- What a library answers to a query, and the library afterwards. -/
def call (l : SpeciesLibrary κ) (path : Option String) (q : Query) :
    Except QueryError Reply × SpeciesLibrary κ :=
  ((l.ask path q).1, (l.ask path q).2.2)

/-- The file that a path stands for. -/
def key? (l : SpeciesLibrary κ) (path : Option String) : Option κ :=
  (path.or l.standing).map l.resolve

/-- Nothing is remembered of a file, or a fresh reading is asked for. -/
def Reads (l : SpeciesLibrary κ) (key : κ) (q : Query) : Prop :=
  q.reloads = true ∨ l.remembered.lookup key = none

/-- The library after a reading of a file. -/
def remember (l : SpeciesLibrary κ) (key : κ) (cat : Catalogue) : SpeciesLibrary κ :=
  { l with remembered := replace l.remembered key cat, readings := l.readings + 1 }

/-- A reading of a file that succeeded. -/
structure Reading (κ : Type) where
  /-- The file. -/
  key : κ
  /-- Its text. -/
  text : String

/-- The reading that a call makes, if it makes one that succeeds. -/
def reading? (l : SpeciesLibrary κ) (path : Option String) (q : Query) : Option (Reading κ) := do
  let key ← l.key? path
  let text ← l.files.lookup key
  if q.needsFile && (q.reloads || (l.remembered.lookup key).isNone) && (parse text).isOk then
    some { key, text }
  else none

/-- What a call can do that needs a file: the reading that it makes, the answer, and the library
afterwards. -/
inductive Outcome (l : SpeciesLibrary κ) (path : Option String) (q : Query) :
    Option (Reading κ) → Except QueryError Reply × SpeciesLibrary κ → Prop
  /-- It has no path. -/
  | noPath (hkey : l.key? path = none) : Outcome l path q none (.error (.load .noPath), l)
  /-- It answers from what is remembered. -/
  | remembered {key : κ} {cat : Catalogue} (hkey : l.key? path = some key)
      (reloads : q.reloads = false) (entry : l.remembered.lookup key = some cat) :
      Outcome l path q none (cat.reply q, l)
  /-- There is no file to read. -/
  | noFile {key : κ} (hkey : l.key? path = some key) (reads : l.Reads key q)
      (file : l.files.lookup key = none) : Outcome l path q none (.error (.load .noFile), l)
  /-- The file cannot be read. -/
  | unread {key : κ} {text : String} {e : LoadError} (hkey : l.key? path = some key)
      (reads : l.Reads key q) (file : l.files.lookup key = some text)
      (unparsed : parse text = .error e) : Outcome l path q none (.error (.load e), l)
  /-- It reads the file. -/
  | read {key : κ} {text : String} {species : List Species}
      (hkey : l.key? path = some key) (reads : l.Reads key q) (file : l.files.lookup key = some text)
      (parsed : parse text = .ok species) :
      Outcome l path q (some ⟨key, text⟩) (Catalogue.reply ⟨l.readings, species⟩ q,
        l.remember key ⟨l.readings, species⟩)

section

variable {l : SpeciesLibrary κ} {path : Option String} {key : κ} {q : Query}

theorem exists_of_not_reads (h : ¬l.Reads key q) :
    q.reloads = false ∧ ∃ cat, l.remembered.lookup key = some cat := by
  obtain ⟨hreload, hentry⟩ := not_or.mp h
  exact ⟨Bool.eq_false_iff.mpr hreload, Option.ne_none_iff_exists'.mp hentry⟩

theorem load_of_key?_eq_none (h : l.key? path = none) (reload : Bool) :
    l.load path reload = .error .noPath := by
  rw [key?, Option.map_eq_none_iff] at h
  rw [load, h]

theorem load_of_remembered (h : l.key? path = some key) {cat : Catalogue}
    (hentry : l.remembered.lookup key = some cat) :
    l.load path false = .ok { catalogue := cat, warnings := [], library := l } := by
  obtain ⟨p, hp, rfl⟩ := Option.map_eq_some_iff.mp h
  simp only [load, hp, Bool.false_eq_true, if_false, hentry]

theorem load_of_reads (h : l.key? path = some key) (hreads : l.Reads key q) :
    l.load path q.reloads = l.read key := by
  obtain ⟨p, hp, rfl⟩ := Option.map_eq_some_iff.mp h
  have hnone : (if q.reloads then none else l.remembered.lookup (l.resolve p)) = none := by
    rcases hreads with hreload | hentry
    · rw [if_pos hreload]
    · rw [hentry, ite_self]
  simp only [load, hp, hnone]

theorem read_of_noFile (h : l.files.lookup key = none) : l.read key = .error .noFile := by
  rw [SpeciesLibrary.read, h]

/-- A file that is there is read as its text says. -/
theorem read_eq_parse {text : String} (h : l.files.lookup key = some text) :
    (∃ e, parse text = .error e ∧ l.read key = .error e) ∨
      ∃ species warnings, parse text = .ok species ∧ l.read key = .ok {
        catalogue := ⟨l.readings, species⟩
        warnings
        library := l.remember key ⟨l.readings, species⟩ } := by
  unfold parse
  rw [SpeciesLibrary.read, h]
  dsimp only
  cases Json.read? text with
  | none => exact .inl ⟨_, rfl, rfl⟩
  | some file =>
    dsimp only
    cases Species.readAll file with
    | error e => exact .inl ⟨_, rfl, rfl⟩
    | ok records => exact .inr ⟨_, _, rfl, rfl⟩

theorem read_of_unparsed {text : String} (h : l.files.lookup key = some text) {e : LoadError}
    (he : parse text = .error e) : l.read key = .error e := by
  obtain ⟨e', he', hread⟩ | ⟨species, -, hparse, -⟩ := read_eq_parse h
  · rw [hread, Except.error.inj (he.symm.trans he')]
  · cases he.symm.trans hparse

theorem read_of_parsed {text : String} (h : l.files.lookup key = some text) {species : List Species}
    (hparse : parse text = .ok species) :
    ∃ warnings, l.read key = .ok {
      catalogue := ⟨l.readings, species⟩
      warnings
      library := l.remember key ⟨l.readings, species⟩ } := by
  obtain ⟨e, he, -⟩ | ⟨species', warnings, hparse', hread⟩ := read_eq_parse h
  · cases he.symm.trans hparse
  · rw [Except.ok.inj (hparse.symm.trans hparse')]
    exact ⟨warnings, hread⟩

theorem call_of_needsFile (hq : q.needsFile = true) : l.call path q =
    match l.load path q.reloads with
    | .error e => (.error (.load e), l)
    | .ok loaded => (loaded.catalogue.reply q, loaded.library) := by
  rw [call, ask, if_pos hq]
  cases l.load path q.reloads with
  | error e => rfl
  | ok loaded => rfl

/-- A call that needs no file answers without one and changes nothing. -/
theorem call_of_not_needsFile (hq : q.needsFile = false) :
    l.call path q = (Catalogue.empty.reply q, l) := by
  rw [call, ask, if_neg (Bool.eq_false_iff.mp hq)]

theorem call_of_noPath (hq : q.needsFile = true) (h : l.key? path = none) :
    l.call path q = (.error (.load .noPath), l) := by
  rw [call_of_needsFile hq, load_of_key?_eq_none h]

theorem call_of_remembered (hq : q.needsFile = true) (h : l.key? path = some key)
    (hreload : q.reloads = false) {cat : Catalogue} (hentry : l.remembered.lookup key = some cat) :
    l.call path q = (cat.reply q, l) := by
  rw [call_of_needsFile hq, hreload, load_of_remembered h hentry]

theorem call_of_noFile (hq : q.needsFile = true) (h : l.key? path = some key)
    (hreads : l.Reads key q) (hfile : l.files.lookup key = none) :
    l.call path q = (.error (.load .noFile), l) := by
  rw [call_of_needsFile hq, load_of_reads h hreads, read_of_noFile hfile]

theorem call_of_unparsed (hq : q.needsFile = true) (h : l.key? path = some key)
    (hreads : l.Reads key q) {text : String} (hfile : l.files.lookup key = some text) {e : LoadError}
    (he : parse text = .error e) : l.call path q = (.error (.load e), l) := by
  rw [call_of_needsFile hq, load_of_reads h hreads, read_of_unparsed hfile he]

theorem call_of_parsed (hq : q.needsFile = true) (h : l.key? path = some key)
    (hreads : l.Reads key q) {text : String} (hfile : l.files.lookup key = some text)
    {species : List Species} (hparse : parse text = .ok species) :
    l.call path q = (Catalogue.reply ⟨l.readings, species⟩ q, l.remember key ⟨l.readings, species⟩) := by
  obtain ⟨warnings, hread⟩ := read_of_parsed hfile hparse
  rw [call_of_needsFile hq, load_of_reads h hreads, hread]

theorem reading?_of_reads (hq : q.needsFile = true) (h : l.key? path = some key)
    (hreads : l.Reads key q) : l.reading? path q =
      (l.files.lookup key).bind fun text =>
        if (parse text).isOk then some { key, text } else none := by
  have hnew : (q.reloads || (l.remembered.lookup key).isNone) = true := by
    simpa [Reads] using hreads
  simp only [reading?, h, Option.bind_eq_bind, Option.bind_some, hq, hnew, Bool.true_and]

theorem reading?_of_remembered (h : l.key? path = some key) (hreads : ¬l.Reads key q) :
    l.reading? path q = none := by
  have hold : (q.reloads || (l.remembered.lookup key).isNone) = false := by
    simpa [Reads] using hreads
  simp [reading?, h, hold]

/-- **What a call can do.** -/
theorem outcome_call (l : SpeciesLibrary κ) (path : Option String) (hq : q.needsFile = true) :
    l.Outcome path q (l.reading? path q) (l.call path q) := by
  cases hkey : l.key? path with
  | none =>
    rw [call_of_noPath hq hkey, reading?, hkey]
    exact .noPath hkey
  | some key =>
    by_cases hreads : l.Reads key q
    · -- the file decides
      rw [reading?_of_reads hq hkey hreads]
      cases hfile : l.files.lookup key with
      | none =>
        rw [call_of_noFile hq hkey hreads hfile]
        exact .noFile hkey hreads hfile
      | some text =>
        rw [Option.bind_some]
        cases hparse : parse text with
        | error e =>
          rw [call_of_unparsed hq hkey hreads hfile hparse]
          exact .unread hkey hreads hfile hparse
        | ok species =>
          rw [call_of_parsed hq hkey hreads hfile hparse]
          exact .read hkey hreads hfile hparse
    · -- the memory decides
      rw [reading?_of_remembered hkey hreads]
      obtain ⟨hreload, cat, hcat⟩ := exists_of_not_reads hreads
      rw [call_of_remembered hq hkey hreload hcat]
      exact .remembered hkey hreload hcat

end

/-! ### Looking at files -/

/-- The files matter to a call: with other ones it would be answered otherwise. -/
def Consults (l : SpeciesLibrary κ) (path : Option String) (q : Query) : Prop :=
  ∃ files, (({ l with files } : SpeciesLibrary κ).call path q).1 ≠ (l.call path q).1

/-- **When a file is looked at**: nothing is remembered of it, or a fresh reading is asked for. -/
theorem consults_iff {l : SpeciesLibrary κ} {path : Option String} {q : Query}
    (hq : q.needsFile = true) :
    l.Consults path q ↔ ∃ key, l.key? path = some key ∧ l.Reads key q := by
  constructor
  · rintro ⟨files, hfiles⟩
    let l' : SpeciesLibrary κ := { l with files }
    cases hkey : l.key? path with
    | none =>
      have hkey' : l'.key? path = none := hkey
      rw [call_of_noPath hq hkey, call_of_noPath hq hkey'] at hfiles
      exact absurd rfl hfiles
    | some key =>
      by_contra hnot
      have hreads : ¬l.Reads key q := fun hreads => hnot ⟨key, rfl, hreads⟩
      obtain ⟨hreload, cat, hcat⟩ := exists_of_not_reads hreads
      -- path and memory are the same with the other files
      have hkey' : l'.key? path = some key := hkey
      have hcat' : l'.remembered.lookup key = some cat := hcat
      rw [call_of_remembered hq hkey hreload hcat, call_of_remembered hq hkey' hreload hcat'] at hfiles
      exact absurd rfl hfiles
  · rintro ⟨key, hkey, hreads⟩
    -- without the file the call fails, with a file of no species it does not
    by_cases h : (l.call path q).1 = .error (.load .noFile)
    · have hparse : parse "\x7b\x7d" = .ok [] := rfl
      refine ⟨[(key, "\x7b\x7d")], ?_⟩
      rw [call_of_parsed (l := { l with files := [(key, "\x7b\x7d")] }) hq hkey hreads
        List.lookup_cons_self hparse, h]
      exact Catalogue.reply_ne_load _ q _
    · refine ⟨[], ?_⟩
      rw [call_of_noFile (l := { l with files := [] }) hq hkey hreads rfl]
      exact fun h' => h h'.symm

theorem Consults.reads {l : SpeciesLibrary κ} {path : Option String} {key : κ} {q : Query}
    (h : l.Consults path q) (hq : q.needsFile = true) (hkey : l.key? path = some key) :
    l.Reads key q := by
  obtain ⟨key', hkey', hreads⟩ := (consults_iff hq).mp h
  rwa [Option.some.inj (hkey.symm.trans hkey')]

end SpeciesLibrary

end GibbsNewton
