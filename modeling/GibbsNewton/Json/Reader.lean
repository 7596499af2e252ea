import GibbsNewton.Json.Basic
import GibbsNewton.Fields
import GibbsNewton.Decimal.Read

/-!
# Reading JSON

A text is read as one JSON value with blanks around it.  Beyond the standard, the words for an
infinity and for a value that is not a number are read as numbers.  A text with anything after its
value, or with a control character inside a string, is refused.  Of two fields with one key the
later value stands, in the place of the earlier one.

## Main definitions

* `Json.read?` — the value of a text.
-/

namespace GibbsNewton.Json

/-- Whether a character may stand between tokens. -/
def isSpace (c : Char) : Bool := c == ' ' || c == '\t' || c == '\n' || c == '\r'

/-- What is left after blanks. -/
def skipSpace (cs : List Char) : List Char := cs.dropWhile isSpace

/-- What is left after a fixed word. -/
def expect? : List Char → List Char → Option (List Char)
  | [], cs => some cs
  | _ :: _, [] => none
  | w :: ws, c :: cs => if w = c then expect? ws cs else none

/-! ### Strings -/

/-- The value of a hexadecimal digit. -/
def hexValue? (c : Char) : Option Nat :=
  if c.isDigit then some (c.toNat - '0'.toNat)
  else if 'a' ≤ c ∧ c ≤ 'f' then some (c.toNat - 'a'.toNat + 10)
  else if 'A' ≤ c ∧ c ≤ 'F' then some (c.toNat - 'A'.toNat + 10)
  else none

/-- Four hexadecimal digits, and what follows them. -/
def readUnit? : List Char → Option (Nat × List Char)
  | a :: b :: c :: d :: cs => do
    let n := (← hexValue? a) * 4096 + (← hexValue? b) * 256 + (← hexValue? c) * 16 + (← hexValue? d)
    some (n, cs)
  | _ => none

/-- The character of a code unit, taking in a second unit written after it when the two form a
pair; a unit of a pair that stands alone becomes the replacement character. -/
def readEscapedUnit? (cs : List Char) : Option (Char × List Char) := do
  let (high, rest) ← readUnit? cs
  let alone := if high < 0xd800 ∨ 0xdfff < high then Char.ofNat high else '\ufffd'
  match rest with
  | '\\' :: 'u' :: more =>
    match readUnit? more with
    | some (low, after) =>
      if 0xd800 ≤ high ∧ high < 0xdc00 ∧ 0xdc00 ≤ low ∧ low < 0xe000 then
        some (Char.ofNat (0x10000 + (high - 0xd800) * 0x400 + (low - 0xdc00)), after)
      else some (alone, rest)
    | none => some (alone, rest)
  | _ => some (alone, rest)

/-- The character that a letter after a backslash stands for. -/
def unescape? : Char → Option Char
  | '"' => some '"'
  | '\\' => some '\\'
  | '/' => some '/'
  | 'b' => some '\x08'
  | 'f' => some '\x0c'
  | 'n' => some '\n'
  | 'r' => some '\r'
  | 't' => some '\t'
  | _ => none

/-- Reads a string from after its opening quote; `done` is what was read so far, backwards. -/
def readString? : Nat → List Char → List Char → Option (String × List Char)
  | 0, _, _ => none
  | fuel + 1, done, cs =>
    match cs with
    | '"' :: rest => some (String.ofList done.reverse, rest)
    | '\\' :: 'u' :: rest => do
      let (c, rest) ← readEscapedUnit? rest
      readString? fuel (c :: done) rest
    | '\\' :: c :: rest => do readString? fuel ((← unescape? c) :: done) rest
    | c :: rest => if c.toNat < 0x20 then none else readString? fuel (c :: done) rest
    | [] => none

/-! ### Numbers -/

/-- The value of a run of decimal digits. -/
def digitsValue (cs : List Char) : Nat :=
  cs.foldl (fun n c => n * 10 + Decimal.digitValue c) 0

/-- The digits after a point, if a point with digits follows. -/
def readPart (cs : List Char) : List Char × List Char :=
  match cs with
  | '.' :: r =>
    let part := r.takeWhile Char.isDigit
    if part.isEmpty then ([], cs) else (part, r.dropWhile Char.isDigit)
  | _ => ([], cs)

/-- An exponent, if the letter with digits follows. -/
def readPower (cs : List Char) : Option Int × List Char :=
  match cs with
  | c :: r =>
    if c = 'e' ∨ c = 'E' then
      let (negative, r) := match r with
        | '-' :: r => (true, r)
        | '+' :: r => (false, r)
        | r => (false, r)
      let power := r.takeWhile Char.isDigit
      if power.isEmpty then (none, cs)
      else
        let value : Int := digitsValue power
        (some (if negative then -value else value), r.dropWhile Char.isDigit)
    else (none, cs)
  | [] => (none, cs)

/-- Reads a number from after its sign: the longest text that is one. -/
def readNumber? (negative : Bool) (cs : List Char) : Option (Json × List Char) :=
  let whole := match cs with
    | '0' :: _ => ['0']
    | _ => cs.takeWhile Char.isDigit
  if whole.isEmpty then none
  else
    let (part, rest) := readPart (cs.drop whole.length)
    let (power, rest) := readPower rest
    if part.isEmpty ∧ power.isNone then
      let n : Int := digitsValue whole
      some (int (if negative then -n else n), rest)
    else
      let x := Decimal.ofScientific (digitsValue (whole ++ part)) (power.getD 0 - part.length)
      some (real (if negative then -x else x), rest)

/-! ### Values -/

mutual

/-- Reads a value that starts at the first character. -/
def readValue? : Nat → List Char → Option (Json × List Char)
  | 0, _ => none
  | fuel + 1, cs =>
    match cs with
    | '"' :: rest => (readString? (rest.length + 1) [] rest).map fun (s, rest) => (text s, rest)
    | '[' :: rest =>
      match skipSpace rest with
      | ']' :: rest => some (list [], rest)
      | rest => (readItems? fuel rest).map fun (items, rest) => (list items, rest)
    | '{' :: rest =>
      match skipSpace rest with
      | '}' :: rest => some (object [], rest)
      | rest => (readFields? fuel [] rest).map fun (fields, rest) => (object fields, rest)
    | 'n' :: rest => (expect? ['u', 'l', 'l'] rest).map fun rest => (null, rest)
    | 't' :: rest => (expect? ['r', 'u', 'e'] rest).map fun rest => (bool true, rest)
    | 'f' :: rest => (expect? ['a', 'l', 's', 'e'] rest).map fun rest => (bool false, rest)
    | 'N' :: rest => (expect? ['a', 'N'] rest).map fun rest => (real (0.0 / 0.0), rest)
    | 'I' :: rest =>
      (expect? ['n', 'f', 'i', 'n', 'i', 't', 'y'] rest).map fun rest => (real (1.0 / 0.0), rest)
    | '-' :: 'I' :: rest =>
      (expect? ['n', 'f', 'i', 'n', 'i', 't', 'y'] rest).map fun rest => (real (-1.0 / 0.0), rest)
    | '-' :: rest => readNumber? true rest
    | cs => readNumber? false cs

/-- Reads the items of a list that has at least one. -/
def readItems? : Nat → List Char → Option (List Json × List Char)
  | 0, _ => none
  | fuel + 1, cs => do
    let (item, rest) ← readValue? fuel cs
    match skipSpace rest with
    | ']' :: rest => some ([item], rest)
    | ',' :: rest =>
      let (items, rest) ← readItems? fuel (skipSpace rest)
      some (item :: items, rest)
    | _ => none

/-- Reads the fields of an object that has at least one more, after those read so far. -/
def readFields? : Nat → List (String × Json) → List Char → Option (List (String × Json) × List Char)
  | 0, _, _ => none
  | fuel + 1, fields, cs => do
    let '"' :: rest := cs | none
    let (key, rest) ← readString? (rest.length + 1) [] rest
    let ':' :: rest := skipSpace rest | none
    let (value, rest) ← readValue? fuel (skipSpace rest)
    let fields := Fields.put fields key value
    match skipSpace rest with
    | '}' :: rest => some (fields, rest)
    | ',' :: rest => readFields? fuel fields (skipSpace rest)
    | _ => none

end

/-- The value of a text, if the text is one JSON value. -/
def read? (s : String) : Option Json := do
  let cs := s.toList
  let (value, rest) ← readValue? (2 * cs.length + 1) (skipSpace cs)
  if (skipSpace rest).isEmpty then some value else none

end GibbsNewton.Json
