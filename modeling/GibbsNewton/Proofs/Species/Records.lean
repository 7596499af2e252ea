import GibbsNewton.Species.Library
import GibbsNewton.Proofs.Species.Coefficients

/-!
# What species are read as

A file has a table of records under names, and every species of a catalogue comes from the record of its
name.  What a record says is stated here field by field: a field that may be left out has a value that
stands in for it, the fit below the midpoint is the one above wherever none of the same length is given,
and one record that says too little leaves the whole file unread.

## Main definitions

* `Formula.IsCount` — a value is a number of atoms.
* `Species.ReadFrom s fields` — what the fits and the midpoint of a species are in terms of its record.
* `Species.IsRecord name fields s` — what a species is in terms of its name and its record.
* `Species.Defective` — records that cannot be read.
* `Species.IsTable file table`, `Species.AreRecords table species` — the table of a file, and its species.

## Main results

* `Species.exists_ofJson_eq_ok_iff` — **what is read from a record.**
* `Species.exists_readAll_eq_ok_iff` — **what is read from a file.**
* `Species.Defective.not_areRecords` — one defective record is enough to leave a file unread.
* `Catalogue.IsOf.exists_readFrom` — every species is read from a record of the file.
-/

namespace GibbsNewton

/-! ### Numbers of atoms -/

namespace Formula

/-- A value is a number of atoms: a number, a truth value or the text of a number. -/
inductive IsCount : Json → Float → Prop
  /-- A whole number. -/
  | int (n : Int) : IsCount (.int n) (Decimal.ofInt n)
  /-- Any other number. -/
  | real (x : Float) : IsCount (.real x) x
  /-- A truth value, which is one or zero. -/
  | bool (b : Bool) : IsCount (.bool b) (if b then 1 else 0)
  /-- The text of a number. -/
  | text {s : String} {x : Float} (read : Decimal.read? s = some x) : IsCount (.text s) x

theorem readCount_eq_ok_iff {j : Json} {x : Float} : readCount j = .ok x ↔ IsCount j x := by
  constructor
  · intro h
    cases j with
    | int n =>
      obtain rfl := Except.ok.inj h
      exact .int n
    | real y =>
      obtain rfl := Except.ok.inj h
      exact .real y
    | bool b =>
      obtain rfl := Except.ok.inj h
      exact .bool b
    | text s =>
      rw [readCount] at h
      split at h
      next y hread =>
        obtain rfl := Except.ok.inj h
        exact .text hread
      next => cases h
    | null | list | object => cases h
  · intro h
    cases h with
    | int | real | bool => rfl
    | text read => rw [readCount, read]

end Formula

namespace Species

/-! ### One record -/

/-- A value has a length, which is the number of its items, characters or fields. -/
inductive HasLength : Json → Nat → Prop
  /-- The items of a list. -/
  | list (items : List Json) : HasLength (.list items) items.length
  /-- The characters of a text. -/
  | text (s : String) : HasLength (.text s) s.length
  /-- The fields of an object. -/
  | object (fields : List (String × Json)) : HasLength (.object fields) fields.length

theorem lengthOf_eq_ok_iff {j : Json} {n : Nat} : lengthOf j = .ok n ↔ HasLength j n := by
  constructor
  · intro h
    cases j with
    | list items =>
      obtain rfl := Except.ok.inj h
      exact .list items
    | text s =>
      obtain rfl := Except.ok.inj h
      exact .text s
    | object fields =>
      obtain rfl := Except.ok.inj h
      exact .object fields
    | null | bool | int | real => cases h
  · rintro ⟨⟩
    all_goals rfl

/-- The fits of a record above and below its midpoint. -/
inductive FitsFrom (fields : List (String × Json)) : Tensor Float → Tensor Float → Prop
  /-- The fit above stands in below where none is given. -/
  | alone {high : Json} {m : Nat} {fit : Tensor Float} (above : fields.lookup "coeffs_high" = some high)
      (below : fields.lookup "coeffs_low" = none) (length : HasLength high m)
      (read : Tensor.IsArray high fit) : FitsFrom fields fit fit
  /-- It stands in where one of another length is given. -/
  | dropped {high low : Json} {m n : Nat} {fit : Tensor Float}
      (above : fields.lookup "coeffs_high" = some high) (below : fields.lookup "coeffs_low" = some low)
      (length : HasLength high m) (lengthBelow : HasLength low n) (ne : n ≠ m)
      (read : Tensor.IsArray high fit) : FitsFrom fields fit fit
  /-- Otherwise both are as they are given. -/
  | both {high low : Json} {m : Nat} {fit fitBelow : Tensor Float}
      (above : fields.lookup "coeffs_high" = some high) (below : fields.lookup "coeffs_low" = some low)
      (length : HasLength high m) (lengthBelow : HasLength low m) (read : Tensor.IsArray high fit)
      (readBelow : Tensor.IsArray low fitBelow) : FitsFrom fields fit fitBelow

/-- What the fits and the midpoint of a species are in terms of its record. -/
structure ReadFrom (s : Species) (fields : List (String × Json)) : Prop where
  /-- The fits are those of the record. -/
  fits : FitsFrom fields s.high s.low
  /-- The midpoint is the one given, and 1000 where none is. -/
  midpoint : s.midpoint = (fields.lookup "T_mid").getD (.real 1000)

/-- What a species is in terms of its name and its record. -/
structure IsRecord (name : String) (fields : List (String × Json)) (s : Species) : Prop
    extends s.ReadFrom fields where
  /-- It has the name of its record. -/
  name_eq : s.name = name
  /-- The longer name is the one given, and the name where none is. -/
  fullName : s.fullName = (fields.lookup "name").getD (.text name)
  /-- The formula has a number of atoms for each element given. -/
  formula : ∃ atoms, fields.lookup "formula" = some (.object atoms) ∧
    List.Forall₂ (fun given atom => given.1 = atom.1 ∧ Formula.IsCount given.2 atom.2) atoms s.formula
  /-- The mass is the one given, and zero where none is. -/
  molecularWeight : s.molecularWeight = (fields.lookup "molecular_weight").getD (.real 0)
  /-- The phase is the one given, and the gas where none is. -/
  phase : s.phase = (fields.lookup "phase").getD (.text "gas")

theorem fieldsOf_eq_ok_iff {j : Json} {fields : List (String × Json)} :
    fieldsOf j = .ok fields ↔ j = .object fields := by
  constructor
  · intro h
    cases j with
    | object fields' => rw [Except.ok.inj h]
    | null | bool | int | real | text | list => cases h
  · rintro rfl
    rfl

theorem need_eq_ok_iff {key : String} {fields : List (String × Json)} {value : Json} :
    need key fields = .ok value ↔ fields.lookup key = some value := by
  unfold need
  split
  next found => simp [found]
  next found => simp [found]

theorem atomsOf_eq_ok_iff {j : Json} {atoms : List (String × Float)} :
    atomsOf j = .ok atoms ↔ ∃ given, j = .object given ∧
      List.Forall₂ (fun given atom => given.1 = atom.1 ∧ Formula.IsCount given.2 atom.2) given atoms := by
  constructor
  · intro h
    obtain ⟨given, hgiven, h⟩ := Except.exists_of_bind_eq_ok h
    refine ⟨given, fieldsOf_eq_ok_iff.mp hgiven, (Except.mapM_eq_ok_iff.mp h).imp ?_⟩
    rintro ⟨element, count⟩ atom hatom
    dsimp only at hatom
    split at hatom
    next x hx =>
      obtain rfl := Except.ok.inj hatom
      exact ⟨rfl, Formula.readCount_eq_ok_iff.mp hx⟩
    next => cases hatom
  · rintro ⟨given, rfl, h⟩
    refine Except.bind_eq_ok_of_eq_ok rfl (Except.mapM_eq_ok_iff.mpr (h.imp ?_))
    rintro ⟨element, count⟩ ⟨element', x⟩ ⟨rfl, hcount⟩
    dsimp only
    rw [Formula.readCount_eq_ok_iff.mpr hcount]

theorem fitsFrom_iff {fields : List (String × Json)} {fit fitBelow : Tensor Float} :
    FitsFrom fields fit fitBelow ↔ ∃ high m n, fields.lookup "coeffs_high" = some high ∧
      HasLength ((fields.lookup "coeffs_low").getD high) n ∧ HasLength high m ∧
        Tensor.IsArray high fit ∧
          Tensor.IsArray (if n != m then high else (fields.lookup "coeffs_low").getD high) fitBelow := by
  constructor
  · intro h
    cases h with
    | @alone high m fit above below length read =>
      rw [below]
      refine ⟨high, m, m, above, length, length, read, ?_⟩
      rwa [Option.getD_none, ite_self]
    | @dropped high low m n fit above below length lengthBelow ne read =>
      rw [below]
      refine ⟨high, m, n, above, lengthBelow, length, read, ?_⟩
      rwa [if_pos (bne_iff_ne.mpr ne)]
    | @both high low m fit fitBelow above below length lengthBelow read readBelow =>
      rw [below]
      refine ⟨high, m, m, above, lengthBelow, length, read, ?_⟩
      rwa [bne_self_eq_false]
  · rintro ⟨high, m, n, above, lengthBelow, length, read, readBelow⟩
    cases below : fields.lookup "coeffs_low" with
    | none =>
      rw [below, Option.getD_none, ite_self] at readBelow
      obtain rfl := read.unique readBelow
      exact .alone above below length read
    | some low =>
      rw [below, Option.getD_some] at lengthBelow readBelow
      by_cases hne : n = m
      · subst hne
        rw [bne_self_eq_false] at readBelow
        exact .both above below length lengthBelow read readBelow
      · rw [if_pos (bne_iff_ne.mpr hne)] at readBelow
        obtain rfl := read.unique readBelow
        exact .dropped above below length lengthBelow hne read

/-- **What is read from a record.** -/
theorem exists_ofJson_eq_ok_iff {name : String} {data : Json} {s : Species} :
    (∃ dropped, ofJson name data = .ok (s, dropped)) ↔
      ∃ fields, data = .object fields ∧ s.IsRecord name fields := by
  constructor
  · rintro ⟨dropped, h⟩
    obtain ⟨fields, hfields, h⟩ := Except.exists_of_bind_eq_ok h
    obtain ⟨high, hhigh, h⟩ := Except.exists_of_bind_eq_ok h
    obtain ⟨n, hn, h⟩ := Except.exists_of_bind_eq_ok h
    obtain ⟨m, hm, h⟩ := Except.exists_of_bind_eq_ok h
    obtain ⟨formula, hformula, h⟩ := Except.exists_of_bind_eq_ok h
    obtain ⟨atoms, hatoms, h⟩ := Except.exists_of_bind_eq_ok h
    obtain ⟨fit, hfit, h⟩ := Except.exists_of_bind_eq_ok h
    obtain ⟨fitBelow, hfitBelow, h⟩ := Except.exists_of_bind_eq_ok h
    obtain ⟨rfl, rfl⟩ := (Prod.mk.injEq ..).mp (Except.ok.inj h)
    obtain ⟨given, rfl, hgiven⟩ := atomsOf_eq_ok_iff.mp hatoms
    refine ⟨fields, fieldsOf_eq_ok_iff.mp hfields, ?_⟩
    exact {
      fits := fitsFrom_iff.mpr ⟨high, m, n, need_eq_ok_iff.mp hhigh, lengthOf_eq_ok_iff.mp hn,
        lengthOf_eq_ok_iff.mp hm, coefficientsOf_eq_ok_iff.mp hfit, coefficientsOf_eq_ok_iff.mp hfitBelow⟩
      midpoint := rfl
      name_eq := rfl
      fullName := rfl
      formula := ⟨given, need_eq_ok_iff.mp hformula, hgiven⟩
      molecularWeight := rfl
      phase := rfl }
  · rintro ⟨fields, rfl, h⟩
    obtain ⟨high, m, n, hhigh, hn, hm, hfit, hfitBelow⟩ := fitsFrom_iff.mp h.fits
    obtain ⟨given, hformula, hgiven⟩ := h.formula
    refine ⟨n != m, ?_⟩
    obtain ⟨name', fullName, formula, molecularWeight, phase, fit, fitBelow, midpoint⟩ := s
    obtain rfl : name' = name := h.name_eq
    obtain rfl := h.fullName
    obtain rfl := h.molecularWeight
    obtain rfl := h.phase
    obtain rfl := h.midpoint
    -- the steps of the reader in their order, none of which fails
    refine Except.bind_eq_ok_of_eq_ok (fieldsOf_eq_ok_iff.mpr rfl) ?_
    refine Except.bind_eq_ok_of_eq_ok (need_eq_ok_iff.mpr hhigh) ?_
    refine Except.bind_eq_ok_of_eq_ok (lengthOf_eq_ok_iff.mpr hn) ?_
    refine Except.bind_eq_ok_of_eq_ok (lengthOf_eq_ok_iff.mpr hm) ?_
    refine Except.bind_eq_ok_of_eq_ok (need_eq_ok_iff.mpr hformula) ?_
    refine Except.bind_eq_ok_of_eq_ok (atomsOf_eq_ok_iff.mpr ⟨given, rfl, hgiven⟩) ?_
    refine Except.bind_eq_ok_of_eq_ok (coefficientsOf_eq_ok_iff.mpr hfit) ?_
    exact Except.bind_eq_ok_of_eq_ok (coefficientsOf_eq_ok_iff.mpr hfitBelow) rfl

/-- The fits of a species are arrays. -/
theorem ReadFrom.full {s : Species} {fields : List (String × Json)} (h : s.ReadFrom fields) :
    s.high.Full ∧ s.low.Full := by
  obtain ⟨high, m, n, -, -, -, hread, hreadBelow⟩ := fitsFrom_iff.mp h.fits
  exact ⟨hread.full, hreadBelow.full⟩

/-- A record without coefficients above the midpoint, without a formula, or with a number of atoms that is
none. -/
inductive Defective : Json → Prop
  /-- There are no coefficients above the midpoint. -/
  | noHigh {fields : List (String × Json)} (high : fields.lookup "coeffs_high" = none) :
      Defective (.object fields)
  /-- There is no formula. -/
  | noFormula {fields : List (String × Json)} (formula : fields.lookup "formula" = none) :
      Defective (.object fields)
  /-- Some number of atoms is none. -/
  | noCount {fields atoms : List (String × Json)} {element : String} {count : Json}
      (formula : fields.lookup "formula" = some (.object atoms)) (mem : (element, count) ∈ atoms)
      (unread : ∀ x, ¬Formula.IsCount count x) : Defective (.object fields)

theorem Defective.not_isRecord {fields : List (String × Json)} (h : Defective (.object fields))
    {name : String} {s : Species} : ¬s.IsRecord name fields := by
  intro hs
  obtain ⟨given, hgiven, hatoms⟩ := hs.formula
  cases h with
  | noHigh hhigh =>
    obtain ⟨high, _, _, hsome, -⟩ := fitsFrom_iff.mp hs.fits
    rw [hhigh] at hsome
    cases hsome
  | noFormula hformula =>
    rw [hformula] at hgiven
    cases hgiven
  | noCount hformula hmem hunread =>
    obtain rfl := Json.object.inj (Option.some.inj (hformula.symm.trans hgiven))
    obtain ⟨atom, -, -, hcount⟩ := exists_mem_of_forall₂ hatoms hmem
    exact hunread _ hcount

/-! ### Files -/

/-- The table of a file from names to records. -/
inductive IsTable : Json → List (String × Json) → Prop
  /-- It is the one given. -/
  | given {fields table : List (String × Json)} (species : fields.lookup "species" = some (.object table)) :
      IsTable (.object fields) table
  /-- It is empty where none is given. -/
  | absent {fields : List (String × Json)} (species : fields.lookup "species" = none) :
      IsTable (.object fields) []

/-- A species is what an entry of the table says. -/
def IsEntry (entry : String × Json) (s : Species) : Prop :=
  ∃ fields, entry.2 = .object fields ∧ s.IsRecord entry.1 fields

/-- The species of a table, in order. -/
def AreRecords (table : List (String × Json)) (species : List Species) : Prop :=
  List.Forall₂ IsEntry table species

/-- An entry says of at most one species what it is. -/
theorem isEntry_rightUnique : Relator.RightUnique IsEntry := by
  intro entry s s' hs hs'
  obtain ⟨dropped, h⟩ := exists_ofJson_eq_ok_iff.mpr hs
  obtain ⟨dropped', h'⟩ := exists_ofJson_eq_ok_iff.mpr hs'
  exact congrArg Prod.fst (Except.ok.inj (h.symm.trans h'))

theorem AreRecords.unique {table : List (String × Json)} {species species' : List Species}
    (h : AreRecords table species) (h' : AreRecords table species') : species = species' :=
  isEntry_rightUnique.forall₂ h h'

theorem isTable_iff {file : Json} {table : List (String × Json)} :
    IsTable file table ↔ ∃ fields, file = .object fields ∧
      (fields.lookup "species").getD (.object []) = .object table := by
  constructor
  · rintro (hspecies | hspecies)
    · exact ⟨_, rfl, by rw [hspecies, Option.getD_some]⟩
    · exact ⟨_, rfl, by rw [hspecies, Option.getD_none]⟩
  · rintro ⟨fields, rfl, h⟩
    cases hspecies : fields.lookup "species" with
    | none =>
      rw [hspecies, Option.getD_none] at h
      obtain rfl := Json.object.inj h
      exact .absent hspecies
    | some given =>
      rw [hspecies, Option.getD_some] at h
      exact .given (hspecies.trans (congrArg some h))

theorem IsTable.unique {file : Json} {table table' : List (String × Json)} (h : IsTable file table)
    (h' : IsTable file table') : table = table' := by
  obtain ⟨fields, rfl, htable⟩ := isTable_iff.mp h
  obtain ⟨fields', hfields, htable'⟩ := isTable_iff.mp h'
  obtain rfl := Json.object.inj hfields
  exact Json.object.inj (htable.symm.trans htable')

/-- **What is read from a file.** -/
theorem exists_readAll_eq_ok_iff {file : Json} {species : List Species} :
    (∃ records, readAll file = .ok records ∧ species = records.map Prod.fst) ↔
      ∃ table, IsTable file table ∧ AreRecords table species := by
  -- whether a fit was dropped is known for each species, and can be left out for all of them
  have hrecords : ∀ {table : List (String × Json)}, (∃ records : List (Species × Bool),
      List.Forall₂ (fun entry r => ofJson entry.1 entry.2 = .ok r) table records ∧
        species = records.map Prod.fst) ↔ AreRecords table species := by
    intro table
    rw [exists_forall₂_map_fst_iff, AreRecords]
    simp only [exists_ofJson_eq_ok_iff]
    rfl
  constructor
  · rintro ⟨records, h, hspecies⟩
    obtain ⟨fields, hfields, h⟩ := Except.exists_of_bind_eq_ok h
    obtain ⟨table, htable, h⟩ := Except.exists_of_bind_eq_ok h
    refine ⟨table, isTable_iff.mpr ⟨fields, fieldsOf_eq_ok_iff.mp hfields, fieldsOf_eq_ok_iff.mp htable⟩, ?_⟩
    exact hrecords.mp ⟨records, Except.mapM_eq_ok_iff.mp h, hspecies⟩
  · rintro ⟨table, htable, h⟩
    obtain ⟨fields, rfl, hgiven⟩ := isTable_iff.mp htable
    obtain ⟨records, hread, hspecies⟩ := hrecords.mpr h
    refine ⟨records, ?_, hspecies⟩
    refine Except.bind_eq_ok_of_eq_ok (fieldsOf_eq_ok_iff.mpr rfl) ?_
    refine Except.bind_eq_ok_of_eq_ok (fieldsOf_eq_ok_iff.mpr hgiven) ?_
    exact Except.mapM_eq_ok_iff.mpr hread

/-- **One defective record is enough** to leave a file unread. -/
theorem Defective.not_areRecords {table : List (String × Json)} {name : String} {data : Json}
    (h : Defective data) (hmem : (name, data) ∈ table) {species : List Species} :
    ¬AreRecords table species := by
  intro hspecies
  obtain ⟨s, -, fields, rfl, hs⟩ := exists_mem_of_forall₂ hspecies hmem
  exact h.not_isRecord hs

/-- The record of a name in a file. -/
def recordOf? (file : Json) (name : String) : Option Json :=
  (file.field? "species").bind fun table => table.field? name

theorem IsTable.recordOf?_eq {file : Json} {table : List (String × Json)} (h : IsTable file table)
    (name : String) : recordOf? file name = table.lookup name := by
  cases h with
  | given species => rw [recordOf?, Json.field?, species, Option.bind_some, Json.field?]
  | absent species =>
    rw [recordOf?, Json.field?, species]
    rfl

end Species

/-! ### Catalogues -/

namespace Catalogue

variable {c : Catalogue} {table : List (String × Json)} {name : String}

/-- The names are those of the table, in order. -/
theorem names_eq (h : Species.AreRecords table c.species) : c.names = table.map Prod.fst := by
  rw [names, ← List.forall₂_eq_eq_eq, List.forall₂_map_left_iff, List.forall₂_map_right_iff]
  refine h.flip.imp ?_
  rintro s entry ⟨fields, -, hs⟩
  exact hs.name_eq

/-- A species is found under a name if its name is that of a record, the first of the name. -/
theorem get_eq_ok (h : Species.AreRecords table c.species) {data : Json}
    (hdata : table.lookup name = some data) :
    ∃ s, c.get name = .ok s ∧ Species.IsEntry (name, data) s := by
  obtain ⟨s, hs, hentry⟩ : ∃ s, c.species.find? (·.name == name) = some s ∧
      Species.IsEntry (name, data) s := by
    generalize c.species = species at h
    induction h with
    | nil => cases hdata
    | @cons entry s _ _ hs _ ih =>
      obtain ⟨key, data'⟩ := entry
      obtain ⟨fields, -, hrecord⟩ := id hs
      have hname : s.name = key := hrecord.name_eq
      by_cases hkey : key = name
      · subst hkey
        obtain rfl := Option.some.inj (List.lookup_cons_self.symm.trans hdata)
        exact ⟨s, by rw [List.find?_cons, beq_iff_eq.mpr hname], hs⟩
      · rw [List.lookup_cons, beq_false_of_ne (Ne.symm hkey)] at hdata
        rw [List.find?_cons, hname, beq_false_of_ne hkey]
        exact ih hdata
  exact ⟨s, by rw [get, hs], hentry⟩

/-- A name without a record is unknown. -/
theorem get_eq_error (h : Species.AreRecords table c.species) (hnone : table.lookup name = none) :
    c.get name = .error { name, available := table.map Prod.fst } := by
  have hfind : c.species.find? (·.name == name) = none := by
    rw [List.find?_eq_none]
    intro s hs hname
    obtain ⟨⟨key, data⟩, hmem, fields, -, hrecord⟩ := exists_mem_of_forall₂ h.flip hs
    have hkey : key = name := hrecord.name_eq.symm.trans (beq_iff_eq.mp hname)
    exact bne_iff_ne.mp (List.lookup_eq_none_iff.mp hnone (key, data) hmem) hkey.symm
  rw [get, hfind, names_eq h]

/-- The species are those of a file. -/
def IsOf (c : Catalogue) (file : Json) : Prop :=
  ∃ records, Species.readAll file = .ok records ∧ c.species = records.map Prod.fst

/-- **Every species is read from a record of the file.** -/
theorem IsOf.exists_readFrom {file : Json} (h : c.IsOf file) {s : Species} (hs : c.get name = .ok s) :
    ∃ fields, Species.recordOf? file name = some (.object fields) ∧ s.ReadFrom fields := by
  obtain ⟨table, htable, hrecords⟩ := Species.exists_readAll_eq_ok_iff.mp h
  cases hdata : table.lookup name with
  | none =>
    rw [get_eq_error hrecords hdata] at hs
    cases hs
  | some data =>
    obtain ⟨s', hs', fields, rfl, hrecord⟩ := get_eq_ok hrecords hdata
    obtain rfl := Except.ok.inj (hs.symm.trans hs')
    exact ⟨fields, (htable.recordOf?_eq name).trans hdata, hrecord.toReadFrom⟩

end Catalogue

end GibbsNewton
