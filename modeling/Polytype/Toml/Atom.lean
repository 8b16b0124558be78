import Polytype.Text.Binary64
import Polytype.Text.Calendar
import Polytype.Text.Numeral

/-!
# Numbers and points in time

Which words are numbers, dates and clock times. Numbers have no needless leading zero, and an
underscore in one stands between digits. A clock time may leave its seconds out.
-/

namespace Polytype.Toml

open Polytype.Text

/-! ## Numbers -/

def isHexDigit (c : Char) : Bool := (digitValue? 16 c).isSome

/-- Every underscore follows a digit, and the word ends in one; `accept` says that a digit stands
just before. -/
def underscoresFit : (accept : Bool) → List Char → Bool
  | accept, [] => accept
  | accept, c :: rest => (c ≠ '_' || accept) && underscoresFit (isHexDigit c) rest

/-- A word that starts with a zero, after a sign or not, without being zero or naming a base. -/
def hasLeadingZero : List Char → Bool
  | '0' :: c :: _ => !(c = 'b' || c = 'o' || c = 'x')
  | '-' :: '0' :: _ :: _ => true
  | '+' :: '0' :: _ :: _ => true
  | _ => false

/-- An integer in 64-bit range, in decimal or in the base that it names. -/
def isInteger (word : List Char) : Bool :=
  let value := match withoutUnderscores word with
    | '0' :: 'x' :: rest => (digits? 16 rest).map Int.ofNat
    | '0' :: 'o' :: rest => (digits? 8 rest).map Int.ofNat
    | '0' :: 'b' :: rest => (digits? 2 rest).map Int.ofNat
    | cs => int64? cs
  underscoresFit false word && !hasLeadingZero word && value.any isInt64

/-- Every point is followed by a digit. -/
def pointsFit : List Char → Bool
  | [] => true
  | '.' :: rest => rest.head?.any Char.isDigit && pointsFit rest
  | _ :: rest => pointsFit rest

/-- The parts of a word between points and exponent marks, without empty ones. -/
def floatParts (word : List Char) : List (List Char) :=
  (word.splitBy fun a b => !isMark a && !isMark b).filter fun part => !part.all isMark
where
  isMark (c : Char) : Bool := c == '.' || c == 'e' || c == 'E'

/-- A fraction or a number with an exponent, in range. -/
def isFloat (word : List Char) : Bool :=
  let parts := floatParts word
  parts.all (underscoresFit false) && !parts.head?.any hasLeadingZero && pointsFit word &&
    (decimal? (withoutUnderscores word)).join.isSome

/-! ## Points in time -/

def clockTime? (cs : List Char) : Option (List Char) := do
  let (hour, cs) ← fixedDigits? 2 cs
  let (minute, cs) ← fixedDigits? 2 (← after? ':' cs)
  if 24 ≤ hour || 60 ≤ minute then none
  else match cs with
    | ':' :: cs =>
      let (second, cs) ← fixedDigits? 2 cs
      if 60 ≤ second then none else some (skipFraction cs)
    | cs => some cs

def date? (cs : List Char) : Option (List Char) := do
  let (year, cs) ← fixedDigits? 4 cs
  let (month, cs) ← fixedDigits? 2 (← after? '-' cs)
  let (day, cs) ← fixedDigits? 2 (← after? '-' cs)
  if isDate year month day then some cs else none

/-- The letters of a point in time in upper case, with a letter between date and time. -/
def uniformTime (c : Char) : Char :=
  if c = 'z' then 'Z' else if c = 't' || c = ' ' then 'T' else c

/-- A date, a clock time, or both. -/
def isTime (word : List Char) : Bool :=
  let cs := word.map uniformTime
  match date? cs with
  | some [] => true
  | some ('T' :: rest) => (clockTime? rest).any fun zone => zone.isEmpty || isTimeZone zone
  | some _ => false
  | none => (clockTime? cs).any List.isEmpty

/-! ## Words -/

def isTimeChar (c : Char) : Bool :=
  c.isDigit || ['-', ':', 'T', 't', ' ', '.', 'Z', 'z', '+'].contains c

def isFloatChar (c : Char) : Bool :=
  c.isDigit || ['_', '.', '-', '+', 'e', 'E'].contains c

def withoutTrailing (word : List Char) : List Char := (word.reverse.dropWhile (· = ' ')).reverse

/-- What follows a word that satisfies a test. -/
def word? (isPart : Char → Bool) (test : List Char → Bool) (cs : List Char) :
    Option (List Char) :=
  if test (cs.takeWhile isPart) then some (cs.dropWhile isPart) else none

/-- What follows a decimal integer or a fraction. -/
def number? (cs : List Char) : Option (List Char) :=
  let digits := match cs with
    | '-' :: rest => rest
    | '+' :: rest => rest
    | rest => rest
  match digits.dropWhile fun c => c.isDigit || c == '_' with
  | c :: _ =>
    if c = '.' || c = 'e' || c = 'E' then word? isFloatChar isFloat cs
    else word? (fun c => c.isDigit || c == '_' || c == '-' || c == '+') isInteger cs
  | [] => word? (fun _ => true) isInteger cs

/-- What follows a number or a point in time. -/
def atom? (cs : List Char) : Option (List Char) :=
  match cs with
  | 'i' :: 'n' :: 'f' :: rest => some rest
  | 'n' :: 'a' :: 'n' :: rest => some rest
  | '+' :: 'i' :: 'n' :: 'f' :: rest => some rest
  | '-' :: 'i' :: 'n' :: 'f' :: rest => some rest
  | '+' :: 'n' :: 'a' :: 'n' :: rest => some rest
  | '-' :: 'n' :: 'a' :: 'n' :: rest => some rest
  | '0' :: 'x' :: _ | '0' :: 'o' :: _ | '0' :: 'b' :: _ =>
    word? (fun c => c.isAlphanum || c == '_') isInteger cs
  | c :: _ =>
    if c.isDigit then
      match cs.dropWhile Char.isDigit with
      | d :: _ =>
        if d = '-' || d = ':' then word? isTimeChar (fun w => isTime (withoutTrailing w)) cs
        else number? cs
      | [] => number? cs
    else if c = '+' || c = '-' then number? cs
    else none
  | [] => none

end Polytype.Toml
