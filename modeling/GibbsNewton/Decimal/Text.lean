import GibbsNewton.Decimal.Binary64

/-!
# Decimal texts of doubles

Three forms.  The *scientific* form has a chosen number of digits after the point and an exponent
of at least two digits; the *fixed* form has a chosen number of digits after the point and no
exponent; the *shortest* form has the fewest digits that still read back as the same double and,
among those, the ones nearest to it.  It is positional from `1e-4` up to but not including `1e16`,
keeping `.0` on a whole number, and scientific outside.

## Main definitions

* `Decimal.scientific`, `Decimal.fixed`, `Decimal.shortest` — the three forms.
-/

namespace GibbsNewton.Decimal

/-! ### Digits -/

/-- The decimal digits of a number. -/
def digits (n : Nat) : List Char := Nat.toDigits 10 n

/-- Digits padded with zeros on the left. -/
def padded (width : Nat) (cs : List Char) : List Char :=
  List.replicate (width - cs.length) '0' ++ cs

/-- An exponent with its sign and at least two digits. -/
def exponentText (k : Int) : List Char :=
  'e' :: (if k < 0 then '-' else '+') :: padded 2 (digits k.natAbs)

/-- A digit string with a point after its first digit, if more follow. -/
def pointed : List Char → List Char
  | [] => []
  | [c] => [c]
  | c :: cs => c :: '.' :: cs

/-- A sign in front of a text. -/
def signed (negative : Bool) (cs : List Char) : String :=
  String.ofList (if negative then '-' :: cs else cs)

/-- The text of an infinity or of a value that is not a number. -/
def nonFinite : Binary64 → String
  | .infinite true => "-inf"
  | .infinite false => "inf"
  | _ => "nan"

/-! ### Scientific and fixed form -/

/-- The leading `precision + 1` digits of a positive quotient as a number, and the decimal exponent
of the first of them; rounding up to a further digit raises the exponent. -/
def leadingDigits (precision : Nat) (num den : Nat) : Nat × Int :=
  let k := decade num den
  let units := roundPlaces (precision - k) num den
  if units = tenPow (precision + 1) then (tenPow precision, k + 1) else (units, k)

/-- The scientific form with `precision` digits after the point. -/
def scientific (precision : Nat) (x : Float) : String :=
  match Binary64.ofFloat x with
  | .finite negative mantissa exponent =>
    if mantissa = 0 then
      signed negative (pointed (padded (precision + 1) ['0']) ++ exponentText 0)
    else
      let (num, den) := Binary64.quotient mantissa exponent
      let (units, k) := leadingDigits precision num den
      signed negative (pointed (digits units) ++ exponentText k)
  | other => nonFinite other

/-- The fixed form with `places` digits after the point. -/
def fixed (places : Nat) (x : Float) : String :=
  match Binary64.ofFloat x with
  | .finite negative mantissa exponent =>
    let (num, den) := Binary64.quotient mantissa exponent
    let cs := padded (places + 1) (digits (roundPlaces places num den))
    let whole := cs.take (cs.length - places)
    let part := cs.drop (cs.length - places)
    signed negative (if places = 0 then whole else whole ++ '.' :: part)
  | other => nonFinite other

/-! ### Shortest form -/

/-- The quotients between which a decimal reads back as `mantissa · 2^exponent`, over the common
denominator `4`: the midpoints towards the two neighbouring doubles.  Below a power of two the
neighbour is only half as far. -/
def readsBackBetween (mantissa : Nat) (exponent : Int) : Nat × Nat :=
  let low := if mantissa = Binary64.hidden ∧ -1074 < exponent then 4 * mantissa - 1 else 4 * mantissa - 2
  (low, 4 * mantissa + 2)

/-- Whether `units · 10^place` reads back as `mantissa · 2^exponent`; a midpoint does when the
mantissa is even. -/
def readsBack (mantissa : Nat) (exponent : Int) (units : Nat) (place : Int) : Bool :=
  let (low, high) := readsBackBetween mantissa exponent
  let (two, twos) := Binary64.quotient 1 (exponent - 2)
  let (num, den) := scaled units 1 place
  let value := num * twos
  let unit := two * den
  if mantissa % 2 = 0 then decide (low * unit ≤ value ∧ value ≤ high * unit)
  else decide (low * unit < value ∧ value < high * unit)

/-- The neighbour of a quotient among the multiples of `10^place` that reads back, if one does; the
nearer of two. -/
def neighbour? (mantissa : Nat) (exponent : Int) (num den : Nat) (place : Int) : Option Nat :=
  let (n, d) := scaled num den (-place)
  let below := n / d
  let candidates :=
    if roundDiv n d = below then [below, below + 1] else [below + 1, below]
  candidates.find? fun units => readsBack mantissa exponent units place

/-- The first place, from the leading one down, at which some decimal reads back: its units and the
place. -/
def shortestUnits (mantissa : Nat) (exponent : Int) (num den : Nat) : Nat → Int → Nat × Int
  | 0, place => ((neighbour? mantissa exponent num den place).getD 0, place)
  | more + 1, place =>
    match neighbour? mantissa exponent num den place with
    | some units => (units, place)
    | none => shortestUnits mantissa exponent num den more (place - 1)

/-- Digits with the first one standing for `10^k`, written positionally or with an exponent. -/
def layout (cs : List Char) (k : Int) : List Char :=
  if -4 ≤ k ∧ k < 16 then
    match k with
    | .ofNat k =>
      let whole := (cs ++ List.replicate (k + 1 - cs.length) '0').take (k + 1)
      let part := cs.drop (k + 1)
      whole ++ '.' :: (if part.isEmpty then ['0'] else part)
    | .negSucc k => '0' :: '.' :: (List.replicate k '0' ++ cs)
  else pointed cs ++ exponentText k

/-- The shortest form. -/
def shortest (x : Float) : String :=
  match Binary64.ofFloat x with
  | .finite negative mantissa exponent =>
    if mantissa = 0 then signed negative ['0', '.', '0']
    else
      let (num, den) := Binary64.quotient mantissa exponent
      let (units, place) := shortestUnits mantissa exponent num den 17 (decade num den)
      let cs := digits units
      let k := place + cs.length - 1
      let trimmed := (cs.reverse.dropWhile (· == '0')).reverse
      signed negative (layout trimmed k)
  | other => nonFinite other

end GibbsNewton.Decimal
