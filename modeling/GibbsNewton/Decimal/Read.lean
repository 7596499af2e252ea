import GibbsNewton.Decimal.Binary64

/-!
# Reading decimals

The texts that stand for a double: digits with an optional point and exponent, an underscore being
allowed between two digits, or the words for infinity and for a value that is not a number in any
case; a sign may go in front and blanks around.  The nearest double is read.

## Main definitions

* `Decimal.read?` — the double a text stands for.
-/

namespace GibbsNewton.Decimal

/-- The value of a decimal digit. -/
def digitValue (c : Char) : Nat := c.toNat - '0'.toNat

/-- Reads on through a run of digits and single underscores between them, given the value and the
number of digits read so far.  Answers the value, the number of digits and the rest. -/
def readDigits (value count : Nat) : List Char → Nat × Nat × List Char
  | '_' :: c :: cs =>
    if c.isDigit ∧ 0 < count then readDigits (value * 10 + digitValue c) (count + 1) cs
    else (value, count, '_' :: c :: cs)
  | c :: cs =>
    if c.isDigit then readDigits (value * 10 + digitValue c) (count + 1) cs
    else (value, count, c :: cs)
  | [] => (value, count, [])

/-- Reads an exponent: nothing, or the letter, an optional sign and at least one digit.  Answers the
exponent and the rest, or nothing when the digits are missing. -/
def readExponent : List Char → Option (Int × List Char)
  | c :: cs =>
    if c = 'e' ∨ c = 'E' then
      let (negative, cs) := match cs with
        | '-' :: r => (true, r)
        | '+' :: r => (false, r)
        | r => (false, r)
      let (value, count, rest) := readDigits 0 0 cs
      if count = 0 then none else some (if negative then -(value : Int) else value, rest)
    else some (0, c :: cs)
  | [] => some (0, [])

/-- The double nearest to `value · 10^exponent`. -/
def ofScientific (value : Nat) (exponent : Int) : Float :=
  -- Beyond these bounds the answer is a zero or an infinity whatever the exponent.
  let digits := (value.log2 + 4) / 3
  if value = 0 then 0
  else if 400 < exponent then 1.0 / 0.0
  else if exponent < -400 - (digits : Int) then 0
  else Float.ofScientific value (decide (exponent < 0)) exponent.natAbs

/-- Reads a number without sign: digits, a point, an exponent, at least one digit before the
exponent. -/
def readUnsigned (cs : List Char) : Option Float := do
  let (whole, count, rest) := readDigits 0 0 cs
  let (value, places, rest) := match rest with
    | '.' :: r =>
      let (part, places, r') := readDigits 0 0 r
      (whole * tenPow places + part, places, r')
    | r => (whole, 0, r)
  if count + places = 0 then none
  let (exponent, rest) ← readExponent rest
  if rest.isEmpty then some (ofScientific value (exponent - places)) else none

/-- Whether a character is a blank that may surround a number. -/
def isBlank (c : Char) : Bool :=
  c.toNat ∈ [0x9, 0xa, 0xb, 0xc, 0xd, 0x1c, 0x1d, 0x1e, 0x1f, 0x20, 0x85, 0xa0, 0x1680, 0x2028,
    0x2029, 0x202f, 0x205f, 0x3000] || (0x2000 ≤ c.toNat && c.toNat ≤ 0x200a)

/-- The double a text stands for. -/
def read? (s : String) : Option Float :=
  let cs := s.toList.dropWhile isBlank
  let cs := (cs.reverse.dropWhile isBlank).reverse
  let (negative, cs) := match cs with
    | '-' :: r => (true, r)
    | '+' :: r => (false, r)
    | r => (false, r)
  let word := String.ofList (cs.map Char.toLower)
  let magnitude :=
    if word = "inf" ∨ word = "infinity" then some (1.0 / 0.0)
    else if word = "nan" then some (0.0 / 0.0)
    else readUnsigned cs
  magnitude.map fun x => if negative then -x else x

end GibbsNewton.Decimal
