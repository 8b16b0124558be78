import Polytype.Text.Binary64
import Polytype.Text.Calendar
import Polytype.Text.Numeral
import Polytype.Yaml.Value

/-!
# The standard reader of scalars

A plain scalar denotes nothing, a truth value, a number, a point in time, or else just text.
`Meaning.of` holds the rules, `integer?` the conversion of a tagged text to a 64-bit integer, and
`Scalars.standard` is the reader that they make.
-/

namespace Polytype.Yaml

open Polytype.Text

/-- What a text denotes. -/
inductive Meaning where
  | null
  | bool
  /-- An integer that fits in 64 bits, with or without a sign. -/
  | int (n : Int)
  | float (x : Binary64)
  | timestamp
  | text
deriving DecidableEq, Repr

def Meaning.value : Meaning → Value
  | null => .null
  | bool => .bool
  | int n => .int n
  | float x => .float x.whole?
  | timestamp => .timestamp
  | text => .text

/-! ## Words -/

def word? (cs : List Char) : Option Meaning :=
  let s := String.ofList cs
  if ["", "~", "null", "Null", "NULL"].contains s then some .null
  else if ["true", "True", "TRUE", "false", "False", "FALSE"].contains s then some .bool
  else if [".nan", ".NaN", ".NAN"].contains s then some (.float .notANumber)
  else if [".inf", ".Inf", ".INF", "+.inf", "+.Inf", "+.INF"].contains s then
    some (.float (.infinite false))
  else if ["-.inf", "-.Inf", "-.INF"].contains s then some (.float (.infinite true))
  else none

/-! ## Integers -/

def signedInRange? (number? : List Char → Option Nat) (cs : List Char) : Option Int :=
  (signed? number? cs).filter isInt64

/-- An integer, or a number without a sign that needs all 64 bits. -/
def integerLiteral? (cs : List Char) : Option Int :=
  signedInRange? basedDigits? cs <|> ((basedDigits? cs).filter (· < 0x10000000000000000)).map Int.ofNat

/-- Binary and octal digits whose sign stands after the base. -/
def lateSign? : List Char → Option Int
  | '0' :: 'b' :: rest => signedInRange? (digits? 2) rest
  | '0' :: 'o' :: rest => signedInRange? (digits? 8) rest
  | _ => none

/-! ## Fractions -/

def pointFraction? (cs : List Char) : Option Binary64 :=
  if separates Char.isDigit false cs then (decimal? (withoutUnderscores cs)).join else none

/-! ## Points in time -/

def clockTime? (cs : List Char) : Option (List Char) := do
  let (hour, cs) ← shortDigits? cs
  let (minute, cs) ← shortDigits? (← after? ':' cs)
  let (second, cs) ← shortDigits? (← after? ':' cs)
  if hour < 24 && minute < 60 && second < 60 then some (skipFraction cs) else none

/-- A date, or a date and a clock time: with a letter between them and a time zone, or with spaces
between them. -/
def isTimestamp (cs : List Char) : Bool :=
  let date : Option (List Char) := do
    let (year, cs) ← fixedDigits? 4 cs
    let (month, cs) ← shortDigits? (← after? '-' cs)
    let (day, cs) ← shortDigits? (← after? '-' cs)
    if isDate year month day then some cs else none
  match date with
  | none => false
  | some [] => true
  | some (c :: rest) =>
    if c = 'T' || c = 't' then (clockTime? rest).any isTimeZone
    else if c = ' ' then (clockTime? (rest.dropWhile (· = ' '))).any List.isEmpty
    else false

/-! ## All texts -/

/-- What a number or a point in time denotes; points in time are told apart only if asked for. -/
def numberOrTime (times : Bool) (cs : List Char) : Meaning :=
  if times && isTimestamp cs then .timestamp
  else
    let plain := withoutUnderscores cs
    match integerLiteral? plain with
    | some n => .int n
    | none =>
      match (decimal? plain).join with
      | some x => .float x
      | none =>
        match lateSign? plain with
        | some n => .int n
        | none => .text

def Meaning.of (times : Bool) (cs : List Char) : Meaning :=
  match word? cs with
  | some d => d
  | none =>
    match cs with
    | [] => .null
    | c :: _ =>
      if c = '.' then
        match pointFraction? cs with
        | some x => .float x
        | none => .text
      else if c.isDigit || c = '+' || c = '-' then numberOrTime times cs
      else .text

/-- The integer that a value converts to: none is zero, and a fraction loses its places. -/
def Meaning.integer? : Meaning → Option Int
  | null => some 0
  | int n => if isInt64 n then some n else none
  | float x => x.toInt64?
  | _ => none

/-- The 64-bit integer of a text with a tag. The tag has to be that of what the text denotes; only
an integer may be taken for a fraction. -/
def integer? (tag : String) (cs : List Char) : Option Int :=
  if tag = "!!str" || tag = "!!binary" then none
  else
    let d := Meaning.of (tag = "!!timestamp") cs
    if tag = d.value.tag then d.integer?
    else match d with
      | .int n =>
        if tag = "!!float" && isInt64 n then
          (Binary64.ofScientific? (n < 0) n.natAbs 0).bind Binary64.toInt64?
        else none
      | _ => none

/-- The reader by these rules. A pair of angle brackets is the key of merged mappings. -/
instance Scalars.standard : Scalars where
  denote s := if s = "<<" then .merge else (Meaning.of true s.toList).value
  int64? tag s := (integer? tag s.toList).map Int64.ofInt

end Polytype.Yaml
