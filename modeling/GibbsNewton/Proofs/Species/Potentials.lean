import GibbsNewton.Proofs.Decimal.Order
import GibbsNewton.Proofs.Species.Calls

/-!
# Standard potentials of species together and alone

The standard potential of a species does not depend on which others are asked for with it.  Where the
species of a query have one midpoint, a range of temperatures is chosen for all of them at once; otherwise
a range is chosen for each, and then a second time from fits that are the same on both sides, which
changes nothing.  Either way every species gets the fit that holds by its own midpoint.

This takes midpoints that are doubles.  A whole number may be none, and is then rounded where a range is
chosen for all but not where one is chosen for each: if it is rounded up, the two ways differ at the
double that it is rounded to.

## Main definitions

* `Species.HasFits k s` — the fits are vectors of one length, and the midpoint is a double.
* `Species.IsPotential s t v` — `v` is the standard potential by the fit that holds at `t`.
* `SpeciesLibrary.AnswersAlone` — what a library answers for a name alone.

## Main results

* `Species.potentials_eq_potentialsOf` — **both ways to choose ranges are one.**
* `SpeciesLibrary.ask_potentials` — **standard potentials do not depend on what is asked for together.**
* `Species.potentials_of_rounded`, `Species.potentials_roundedUp` — they do where a midpoint is rounded up.
-/

namespace GibbsNewton

namespace Species

/-! ### Choosing ranges -/

section

variable {species : List Species} {t x : Float} {shape : List ℕ} {m : ExactNumber}
  {others : List ExactNumber} {fits lows highs : List (Tensor Float)}

/-- The fit of a species is the one that its midpoint says. -/
theorem coefficients?_eq {s : Species} (h : s.midpoint? = some m) :
    s.coefficients? t = some (if m.ltReal t then s.high else s.low) := by
  rw [coefficients?, h, Option.map_some]

/-- Both fits of some species have one shape. -/
def OneShape (shape : List ℕ) (species : List Species) : Prop :=
  ∀ s ∈ species, s.high.shape = shape ∧ s.low.shape = shape

theorem OneShape.of_coefficients? (h : OneShape shape species)
    (hfits : species.mapM (·.coefficients? t) = some fits) : ∀ c ∈ fits, c.shape = shape := by
  intro c hc
  obtain ⟨s, hs, hcs⟩ := exists_mem_of_forall₂ (Option.mapM_eq_some_iff.mp hfits).flip hc
  obtain ⟨m, -, rfl⟩ := Option.map_eq_some_iff.mp hcs
  split
  · exact (h s hs).1
  · exact (h s hs).2

/-- Fits of one shape pass the test of their shapes. -/
theorem all_shape_eq (hne : lows ≠ []) (hlow : ∀ c ∈ lows, c.shape = shape)
    (hfits : ∀ c ∈ fits, c.shape = shape) :
    (fits.all fun c => some c.shape == lows.head?.map Tensor.shape) = true := by
  obtain ⟨first, rest, rfl⟩ := List.exists_cons_of_ne_nil hne
  rw [List.all_eq_true]
  intro c hc
  rw [hfits c hc, List.head?_cons, Option.map_some, hlow first List.mem_cons_self, beq_self_eq_true]

/-- Where shapes agree and the midpoint becomes a double, a range is chosen by that double. -/
theorem potentialsAbout_eq (hne : lows ≠ []) (hlow : ∀ c ∈ lows, c.shape = shape)
    (hhigh : ∀ c ∈ highs, c.shape = shape) (hx : m.toFloat? = some x) :
    potentialsAbout t m lows highs = potentialsOf t (chooseRange t x lows highs) := by
  have hboth : ∀ c ∈ lows ++ highs, c.shape = shape := by
    intro c hc
    exact (List.mem_append.mp hc).elim (hlow c) (hhigh c)
  rw [potentialsAbout, if_pos (all_shape_eq hne hlow hboth), hx]

/-- A range chosen for all is the same range for each. -/
theorem chooseRange_map : chooseRange t x (species.map low) (species.map high) =
    species.map fun s => if Scalar.lt x t then s.high else s.low := by
  rw [chooseRange]
  cases Scalar.lt x t with
  | true => rfl
  | false => rfl

theorem ne_nil_of_midpoints (h : species.mapM (·.midpoint?) = some (m :: others)) : species ≠ [] := by
  rintro rfl
  cases h

/-- Species of one midpoint have a range chosen for all of them. -/
theorem potentials_of_same (hmid : species.mapM (·.midpoint?) = some (m :: others))
    (hsame : others.all (·.same m) = true) (hx : m.toFloat? = some x)
    (hshape : OneShape shape species) :
    potentials species t = potentialsOf t (chooseRange t x (species.map low) (species.map high)) := by
  have hne : species.map low ≠ [] := fun h => ne_nil_of_midpoints hmid (List.map_eq_nil_iff.mp h)
  have hlow : ∀ c ∈ species.map low, c.shape = shape :=
    List.forall_mem_map.mpr fun s hs => (hshape s hs).2
  have hhigh : ∀ c ∈ species.map high, c.shape = shape :=
    List.forall_mem_map.mpr fun s hs => (hshape s hs).1
  rw [potentials, hmid]
  dsimp only
  rw [if_pos hsame, potentialsAbout_eq hne hlow hhigh hx]

/-- Species of different midpoints have a range chosen for each. -/
theorem potentials_of_not_same (hmid : species.mapM (·.midpoint?) = some (m :: others))
    (hsame : ¬others.all (·.same m) = true) (hfits : species.mapM (·.coefficients? t) = some fits)
    (hshape : OneShape shape species) : potentials species t = potentialsOf t fits := by
  have hne : fits ≠ [] := by
    rintro rfl
    have hlength := (Option.mapM_eq_some_iff.mp hfits).length_eq
    exact ne_nil_of_midpoints hmid (List.length_eq_zero_iff.mp hlength)
  have hfit := hshape.of_coefficients? hfits
  rw [potentials, hmid]
  dsimp only
  rw [if_neg hsame, hfits]
  dsimp only
  rw [potentialsAbout_eq hne hfit hfit rfl, chooseRange, ite_self]

/-- **Both ways to choose ranges are one** where the midpoints are doubles. -/
theorem potentials_eq_potentialsOf (hmid : ∀ s ∈ species, ∃ m, s.midpoint? = some m ∧ m.IsDouble)
    (hne : species ≠ []) (hfits : species.mapM (·.coefficients? t) = some fits)
    (hshape : OneShape shape species) : potentials species t = potentialsOf t fits := by
  obtain ⟨midpoints, hall⟩ := exists_forall₂ hmid
  have hmids : species.mapM (·.midpoint?) = some midpoints :=
    Option.mapM_eq_some_iff.mpr (hall.imp fun _ _ h => h.1)
  cases midpoints with
  | nil => exact absurd (List.length_eq_zero_iff.mp hall.length_eq) hne
  | cons m others =>
    by_cases hsame : others.all (·.same m) = true
    · obtain ⟨s, -, -, hdouble⟩ := exists_mem_of_forall₂ hall.flip (List.mem_cons_self (a := m))
      obtain ⟨x, hx, hlt⟩ := hdouble.exists_toFloat?
      -- the midpoints are all on the side of the first one
      have hside : ∀ s ∈ species, s.coefficients? t = some (if Scalar.lt x t then s.high else s.low) := by
        intro s hs
        obtain ⟨m', hm', hs', -⟩ := exists_mem_of_forall₂ hall hs
        have hltReal : m'.ltReal t = m.ltReal t := by
          rcases List.mem_cons.mp hm' with rfl | hother
          · rfl
          · exact ExactNumber.ltReal_eq_of_same (List.all_eq_true.mp hsame m' hother) t
        rw [coefficients?_eq hs', hltReal, hlt]
      have hchosen : chooseRange t x (species.map low) (species.map high) = fits := by
        apply Option.some.inj
        rw [chooseRange_map, ← hfits, eq_comm, Option.mapM_eq_some_iff, List.forall₂_map_right_iff,
          List.forall₂_same]
        exact hside
      rw [potentials_of_same hmids hsame hx hshape, hchosen]
    · exact potentials_of_not_same hmids hsame hfits hshape

end

/-- **Where a midpoint is rounded up**, a species has the fit below at the double that the midpoint is
rounded to if it is asked for alone, and the fit above if it is asked for with a species of another
midpoint. -/
theorem potentials_of_rounded {s : Species} {n : ℤ} {x : Float} {shape : List ℕ}
    (hm : s.midpoint? = some (.int n)) (hx : (ExactNumber.int n).toFloat? = some x)
    (hup : ExactNumber.intLt n x = true) (hshape : OneShape shape [s]) :
    potentials [s] x = potentialsOf x [s.low] ∧
      ∀ s' m', s'.midpoint? = some m' → m'.same (.int n) = false → OneShape shape [s, s'] →
        potentials [s, s'] x =
          potentialsOf x [s.high, if m'.ltReal x then s'.high else s'.low] := by
  constructor
  · have hmids : [s].mapM (·.midpoint?) = some [.int n] :=
      Option.mapM_eq_some_iff.mpr (.cons hm .nil)
    rw [potentials_of_same hmids rfl hx hshape, chooseRange, Binary64.lt_self]
    rfl
  · intro s' m' hm' hother hboth
    have hmids : [s, s'].mapM (·.midpoint?) = some [.int n, m'] :=
      Option.mapM_eq_some_iff.mpr (.cons hm (.cons hm' .nil))
    have hfits : [s, s'].mapM (·.coefficients? x) =
        some [s.high, if m'.ltReal x then s'.high else s'.low] := by
      apply Option.mapM_eq_some_iff.mpr
      refine .cons ?_ (.cons (coefficients?_eq hm') .nil)
      rw [coefficients?_eq hm, ExactNumber.ltReal, if_pos hup]
    have hsame : ¬[m'].all (·.same (.int n)) = true := by
      simpa using hother
    exact potentials_of_not_same hmids hsame hfits hboth

/-- A species with such a midpoint. -/
def roundedUp : Species where
  name := "A"
  fullName := .text "A"
  formula := []
  molecularWeight := .real 0
  phase := .text "gas"
  high := .ofList [2, 0, 0, 0, 0, 0, 0]
  low := .ofList [1, 0, 0, 0, 0, 0, 0]
  midpoint := .int 18014398509481987

/-- Another one, which only differs in its midpoint. -/
def notRounded : Species := { roundedUp with name := "B", midpoint := .int 1000 }

/-- The double that its midpoint is rounded to. -/
def roundedMidpoint : Float := 18014398509481988

/-- **Asked for alone, a species has another fit than together with a second one**, and not the one that
holds by its midpoint. -/
theorem potentials_roundedUp :
    roundedUp.coefficients? roundedMidpoint = some roundedUp.high ∧ roundedUp.low ≠ roundedUp.high ∧
      potentials [roundedUp] roundedMidpoint = potentialsOf roundedMidpoint [roundedUp.low] ∧
        potentials [roundedUp, notRounded] roundedMidpoint =
          potentialsOf roundedMidpoint [roundedUp.high, notRounded.high] := by
  have hm : roundedUp.midpoint? = some (.int 18014398509481987) := rfl
  have hm' : notRounded.midpoint? = some (.int 1000) := rfl
  have hrounded : (ExactNumber.int 18014398509481987).toFloat? = some roundedMidpoint := by
    decide +kernel
  have hup : ExactNumber.intLt 18014398509481987 roundedMidpoint = true := by decide +kernel
  have hup' : (ExactNumber.int 1000).ltReal roundedMidpoint = true := by decide +kernel
  have hfits : roundedUp.low ≠ roundedUp.high := by decide +kernel
  have halone : OneShape [7] [roundedUp] := by
    simp [OneShape, roundedUp, Tensor.ofList]
  have hboth : OneShape [7] [roundedUp, notRounded] := by
    simp [OneShape, notRounded, roundedUp, Tensor.ofList]
  obtain ⟨hlow, hhigh⟩ := potentials_of_rounded hm hrounded hup halone
  refine ⟨?_, hfits, hlow, ?_⟩
  · rw [coefficients?_eq hm, ExactNumber.ltReal, if_pos hup]
  · rw [hhigh notRounded (.int 1000) hm' rfl hboth, if_pos hup']

/-! ### The potentials -/

/-- The value is the standard potential of a species, by the fit above its midpoint if the temperature is,
and by the fit below otherwise. -/
def IsPotential (s : Species) (t v : Float) : Prop :=
  ∃ m c, s.midpoint? = some m ∧
    Fit.ofList? (if m.ltReal t then s.high else s.low).entries = some c ∧
      v = c.gibbs t standardPressure / (gasConstant * t)

/-- The fits of a species are vectors of one length, and its midpoint is a double. -/
structure HasFits (k : ℕ) (s : Species) : Prop where
  /-- The fit above the midpoint. -/
  high : s.high.shape = [k]
  /-- The fit below. -/
  low : s.low.shape = [k]
  /-- The midpoint. -/
  midpoint : ∃ m, s.midpoint? = some m ∧ m.IsDouble

/-- Standard potentials of fits of one length. -/
theorem potentialsOf_eq_ok {t : Float} {shape : List ℕ} {fits : List (Tensor Float)}
    {values : List Float} (hne : fits ≠ []) (hshape : ∀ c ∈ fits, c.shape = shape)
    (h : List.Forall₂ (fun c v => ∃ fit, Fit.ofList? c.entries = some fit ∧ v = fit.potential t)
      fits values) : potentialsOf t fits = .ok values := by
  rw [potentialsOf, if_pos (all_shape_eq hne hshape hshape), if_neg (by simpa using hne),
    Except.mapM_eq_ok_iff]
  apply h.imp
  rintro c v ⟨fit, hfit, rfl⟩
  rw [hfit]

/-- **Standard potentials** of species with fits of one length. -/
theorem potentials_eq_ok {species : List Species} {k : ℕ} {t : Float} {values : List Float}
    (hne : species ≠ []) (hfits : ∀ s ∈ species, s.HasFits k)
    (h : List.Forall₂ (fun s v => s.IsPotential t v) species values) :
    potentials species t = .ok values := by
  let fits := species.map fun s => (s.coefficients? t).getD s.low
  have hmap : species.mapM (·.coefficients? t) = some fits := by
    rw [Option.mapM_eq_some_iff, List.forall₂_map_right_iff, List.forall₂_same]
    intro s hs
    obtain ⟨m, hm, -⟩ := (hfits s hs).midpoint
    rw [coefficients?_eq hm, Option.getD_some]
  have hshape : OneShape [k] species := fun s hs => ⟨(hfits s hs).high, (hfits s hs).low⟩
  have hfitsne : fits ≠ [] := fun h => hne (List.map_eq_nil_iff.mp h)
  rw [potentials_eq_potentialsOf (fun s hs => (hfits s hs).midpoint) hne hmap hshape]
  apply potentialsOf_eq_ok hfitsne (hshape.of_coefficients? hmap)
  rw [List.forall₂_map_left_iff]
  apply h.imp
  rintro s v ⟨m, c, hm, hc, hv⟩
  rw [coefficients?_eq hm, Option.getD_some]
  exact ⟨c, hc, hv⟩

/-- An array of positive size has a fit. -/
theorem exists_ofList? {a : Tensor Float} {k : ℕ} (hfull : a.Full) (hshape : a.shape = [k])
    (hk : 0 < k) : ∃ c, Fit.ofList? a.entries = some c := by
  cases hentries : a.entries with
  | nil =>
    rw [Tensor.Full, hentries, hshape, List.prod_singleton, List.length_nil] at hfull
    omega
  | cons first rest => exact ⟨⟨first, rest⟩, rfl⟩

theorem HasFits.exists_isPotential {s : Species} {k : ℕ} (h : s.HasFits k) (hk : 0 < k)
    {fields : List (String × Json)} (hread : s.ReadFrom fields) (t : Float) :
    ∃ v, s.IsPotential t v := by
  obtain ⟨m, hm, -⟩ := h.midpoint
  have hchosen : ∃ c, Fit.ofList? (if m.ltReal t then s.high else s.low).entries = some c := by
    split
    · exact exists_ofList? hread.full.1 h.high hk
    · exact exists_ofList? hread.full.2 h.low hk
  obtain ⟨c, hc⟩ := hchosen
  exact ⟨_, m, c, hm, hc, rfl⟩

end Species

/-! ### Queries -/

variable {κ : Type} [DecidableEq κ]

/-- What is answered to a query for standard potentials. -/
theorem Catalogue.reply_potentials {cat : Catalogue} {names : List String} {species : List Species}
    {k : ℕ} {t : Float} {values : List Float} (hne : names ≠ [])
    (hnames : List.Forall₂ (fun name s => cat.get name = .ok s) names species)
    (hfits : ∀ s ∈ species, s.HasFits k)
    (h : List.Forall₂ (fun s v => s.IsPotential t v) species values) :
    cat.reply (.potentials names t) = .ok (.potentials values) := by
  have hspecies : species ≠ [] := by
    rintro rfl
    exact hne (List.length_eq_zero_iff.mp hnames.length_eq)
  have hget : cat.getAll names = .ok species := by
    rw [getAll, Except.mapM_eq_ok_iff.mpr hnames]
    rfl
  rw [reply, hget]
  change (Species.potentials species t).mapError QueryError.potentials >>= _ = _
  rw [Species.potentials_eq_ok hspecies hfits h]
  rfl

/-- A query for standard potentials is answered from the catalogue that is loaded. -/
theorem SpeciesLibrary.ask_potentials_eq {l : SpeciesLibrary κ} {path : Option String}
    {loaded : Loaded κ}
    (hload : l.load path false = .ok loaded) {names : List String} (hne : names ≠ []) (t : Float) :
    (l.ask path (.potentials names t)).1 = loaded.catalogue.reply (.potentials names t) := by
  have hneeds : (Query.potentials names t).needsFile = true := by
    simpa [Query.needsFile] using hne
  have hreloads : (Query.potentials names t).reloads = false := rfl
  rw [ask, if_pos hneeds, hreloads, hload]

/-- A library answers `v` for a name alone, which is the standard potential of the species of that name as
it is read from its record. -/
structure SpeciesLibrary.AnswersAlone (l : SpeciesLibrary κ) (path : Option String) (cat : Catalogue)
    (file : Json) (t : Float) (name : String) (v : Float) : Prop where
  /-- The answer. -/
  alone : (l.ask path (.potentials [name] t)).1 = .ok (.potentials [v])
  /-- The species, its record and its potential. -/
  exists_record : ∃ s fields, cat.get name = .ok s ∧
    Species.recordOf? file name = some (.object fields) ∧ s.ReadFrom fields ∧ s.IsPotential t v

/-- **Standard potentials do not depend on what is asked for together.**  Asked for known names whose
fits have one length of seven or nine and whose midpoints are doubles, a library answers for each name
what it answers for that name alone: the Gibbs energy in units of `R T`, by the fit above the midpoint of
the species if the temperature is above it and by the fit below otherwise, where the fit above stands in
below if the record of the species has none of the same length there. -/
theorem SpeciesLibrary.ask_potentials {l : SpeciesLibrary κ} {path : Option String} {loaded : Loaded κ}
    (hload : l.load path false = .ok loaded) {file : Json} (hfile : loaded.catalogue.IsOf file)
    {names : List String} (hne : names ≠ []) {k : ℕ} (hk : k = 7 ∨ k = 9)
    (hnames : ∀ name ∈ names, ∃ s, loaded.catalogue.get name = .ok s ∧ s.HasFits k) (t : Float) :
    ∃ values, (l.ask path (.potentials names t)).1 = .ok (.potentials values) ∧
      List.Forall₂ (l.AnswersAlone path loaded.catalogue file t) names values := by
  have hpos : 0 < k := by omega
  -- every name with its species and the potential of it
  have hknown : ∀ name ∈ names, ∃ p : Species × Float, loaded.catalogue.get name = .ok p.1 ∧
      p.1.HasFits k ∧ p.1.IsPotential t p.2 ∧ ∃ fields,
        Species.recordOf? file name = some (.object fields) ∧ p.1.ReadFrom fields := by
    intro name hname
    obtain ⟨s, hs, hfits⟩ := hnames name hname
    obtain ⟨fields, hrecord, hread⟩ := hfile.exists_readFrom hs
    obtain ⟨v, hv⟩ := hfits.exists_isPotential hpos hread t
    exact ⟨(s, v), hs, hfits, hv, fields, hrecord, hread⟩
  obtain ⟨pairs, hpairs⟩ := exists_forall₂ hknown
  have hmem : ∀ p ∈ pairs, p.1.HasFits k ∧ p.1.IsPotential t p.2 := by
    intro p hp
    obtain ⟨name, -, -, hfits, hv, -⟩ := exists_mem_of_forall₂ hpairs.flip hp
    exact ⟨hfits, hv⟩
  have hget : List.Forall₂ (fun name s => loaded.catalogue.get name = .ok s) names
      (pairs.map Prod.fst) := by
    rw [List.forall₂_map_right_iff]
    exact hpairs.imp fun _ _ h => h.1
  have hvalues : List.Forall₂ (fun s v => Species.IsPotential s t v) (pairs.map Prod.fst)
      (pairs.map Prod.snd) := by
    rw [List.forall₂_map_left_iff, List.forall₂_map_right_iff, List.forall₂_same]
    exact fun p hp => (hmem p hp).2
  refine ⟨pairs.map Prod.snd, ?_, ?_⟩
  · rw [ask_potentials_eq hload hne]
    exact Catalogue.reply_potentials hne hget (List.forall_mem_map.mpr fun p hp => (hmem p hp).1) hvalues
  · rw [List.forall₂_map_right_iff]
    apply hpairs.imp
    rintro name ⟨s, v⟩ ⟨hs, hfits, hv, fields, hrecord, hread⟩
    refine ⟨?_, s, fields, hs, hrecord, hread, hv⟩
    rw [ask_potentials_eq hload (List.cons_ne_nil name [])]
    exact Catalogue.reply_potentials (List.cons_ne_nil name []) (.cons hs .nil)
      (List.forall_mem_singleton.mpr hfits) (.cons hv .nil)

/-- Three species: without a midpoint and a fit below it, with a midpoint that is a whole number, and with
a fit below it that has another length. -/
def SpeciesLibrary.threeSpecies : Json :=
  let fit (a : Int) : Json := .list [.int a, .int 0, .int 0, .int 0, .int 0, .int 0, .int 1]
  .object [("species", .object [
    ("A", .object [("formula", .object []), ("coeffs_high", fit 1)]),
    ("B", .object [("formula", .object []), ("coeffs_high", fit 2), ("coeffs_low", fit 3),
      ("T_mid", .int 600)]),
    ("C", .object [("formula", .object []), ("coeffs_high", fit 4), ("coeffs_low", .list []),
      ("T_mid", .real 200)])])]

/-- The catalogue that is read from them. -/
def SpeciesLibrary.threeCatalogue : Catalogue where
  reading := 0
  species := match Species.readAll threeSpecies with
    | .ok records => records.map Prod.fst
    | .error _ => []

/-- A library that remembers them. -/
def SpeciesLibrary.threeLibrary : SpeciesLibrary (List String) where
  resolve := resolvePath []
  standing := some "species.json"
  remembered := [(resolvePath [] "species.json", threeCatalogue)]

/-- All of them at the midpoint of the second one, with the first one asked for twice. -/
theorem SpeciesLibrary.ask_potentials_three :
    threeLibrary.load none false =
        .ok { catalogue := threeCatalogue, warnings := [], library := threeLibrary } ∧
      threeCatalogue.IsOf threeSpecies ∧
      (∀ name ∈ ["A", "B", "A", "C"], ∃ s, threeCatalogue.get name = .ok s ∧ s.HasFits 7) ∧
      ∃ values, (threeLibrary.ask none (.potentials ["A", "B", "A", "C"] 600)).1 =
          .ok (.potentials values) ∧
        List.Forall₂ (threeLibrary.AnswersAlone none threeCatalogue threeSpecies 600)
          ["A", "B", "A", "C"] values := by
  have hload : threeLibrary.load none false =
      .ok { catalogue := threeCatalogue, warnings := [], library := threeLibrary } :=
    load_of_remembered rfl (lookup_replace_self [] (resolvePath [] "species.json") threeCatalogue)
  have hfile : threeCatalogue.IsOf threeSpecies := ⟨_, rfl, rfl⟩
  have hA : ∃ s, threeCatalogue.get "A" = .ok s ∧ s.HasFits 7 :=
    ⟨_, rfl, rfl, rfl, _, rfl, .real _⟩
  have hB : ∃ s, threeCatalogue.get "B" = .ok s ∧ s.HasFits 7 :=
    ⟨_, rfl, rfl, rfl, _, rfl, .int (by decide) (by decide)⟩
  have hC : ∃ s, threeCatalogue.get "C" = .ok s ∧ s.HasFits 7 :=
    ⟨_, rfl, rfl, rfl, _, rfl, .real _⟩
  have hnames : ∀ name ∈ ["A", "B", "A", "C"],
      ∃ s, threeCatalogue.get name = .ok s ∧ s.HasFits 7 := by
    simp only [List.mem_cons, List.not_mem_nil]
    rintro name (rfl | rfl | rfl | rfl | h)
    · exact hA
    · exact hB
    · exact hA
    · exact hC
    · exact h.elim
  exact ⟨hload, hfile, hnames, ask_potentials hload hfile (List.cons_ne_nil _ _) (.inl rfl) hnames 600⟩

end GibbsNewton
