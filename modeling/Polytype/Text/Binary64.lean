import Polytype.Text.Numeral

/-!
# Decimal fractions in 64-bit binary floating point

A finite value of the format is a sign, a significand of at most 53 bits and a power of two.
`Binary64.ofScientific?` takes the nearest such value to a decimal fraction, a tie going to the even
significand, and refuses a fraction that is nearest to infinity. Values below the least normal
number keep all 53 bits here, since only their integer part is ever asked for.
-/

namespace Polytype.Text

inductive Binary64 where
  /-- Plus or minus `significand * 2 ^ exponent`. -/
  | finite (negative : Bool) (significand : Nat) (exponent : Int)
  | infinite (negative : Bool)
  | notANumber
deriving DecidableEq, Repr

namespace Binary64

/-- The quotient rounded to the nearest integer, a tie to the even one. -/
def roundDiv (num den : Nat) : Nat :=
  let floor := num / den
  let twice := 2 * (num % den)
  if twice < den then floor
  else if den < twice then floor + 1
  else if floor % 2 = 0 then floor else floor + 1

/-- `num / den` times a power of two, rounded. -/
def scaled (num den : Nat) : Int → Nat
  | .ofNat k => roundDiv (num <<< k) den
  | .negSucc k => roundDiv num (den <<< (k + 1))

/-- The nearest value to a positive quotient: a significand and an exponent. The first exponent
leaves 53 or 54 bits before the point; with 54, one more is given up. -/
def nearest (num den : Nat) : Nat × Int :=
  let exponent := (Nat.log2 num : Int) - Nat.log2 den - 53
  let significand := scaled num den (-exponent)
  if significand < 0x20000000000000 then (significand, exponent)
  else (scaled num den (-(exponent + 1)), exponent + 1)

/-- Decimal exponents beyond this one decide a value by themselves: it overflows or vanishes. -/
def exponentLimit : Nat := 400

/-- The value nearest to `digits * 10 ^ exponent`, unless that is infinite. -/
def ofScientific? (negative : Bool) (digits : Nat) (exponent : Int) : Option Binary64 :=
  let size := exponent + (naturalChars digits).length
  if digits = 0 || size < -exponentLimit then some (finite negative 0 0)
  else if exponentLimit < size then none
  else
    let (significand, power) := match exponent with
      | .ofNat k => nearest (digits * Nat.pow 10 k) 1
      | .negSucc k => nearest digits (Nat.pow 10 (k + 1))
    if power + Nat.log2 significand < 1024 then some (finite negative significand power) else none

def truncate (negative : Bool) (significand : Nat) (exponent : Int) : Int :=
  let size : Nat := match exponent with
    | .ofNat k => significand <<< k
    | .negSucc k => significand >>> (k + 1)
  if negative then -size else size

def whole? : Binary64 → Option Int
  | finite negative significand exponent => some (truncate negative significand exponent)
  | _ => none

/-- Conversion to a 64-bit integer, for values up to `2 ^ 63`: the integer part, and the least
integer for all that lies beyond the range. -/
def toInt64? : Binary64 → Option Int
  | finite negative significand exponent =>
    let n := truncate negative significand exponent
    if 0x8000000000000000 < n then none
    else some (if isInt64 n then n else -0x8000000000000000)
  | infinite negative => if negative then some (-0x8000000000000000) else none
  | notANumber => none

end Binary64

/-! ## Numerals -/

/-- Digits, a point and more digits, read as one number; also how many digits follow the point and
what comes after. At least one digit is needed. -/
def fraction? (cs : List Char) : Option (Nat × Nat × List Char) :=
  let whole := cs.takeWhile Char.isDigit
  let rest := cs.dropWhile Char.isDigit
  let (part, rest) := match rest with
    | '.' :: rest => (rest.takeWhile Char.isDigit, rest.dropWhile Char.isDigit)
    | rest => ([], rest)
  (digits? 10 (whole ++ part)).map fun n => (n, part.length, rest)

/-- The digits of an exponent. Those after the exponent has reached ten thousand do not count. -/
def exponentDigits? (cs : List Char) : Option Nat :=
  if cs.isEmpty || !cs.all Char.isDigit then none
  else some (cs.foldl (fun e c => if e < 10000 then 10 * e + (c.toNat - '0'.toNat) else e) 0)

def exponent? : List Char → Option Int
  | [] => some 0
  | c :: rest =>
    if c = 'e' || c = 'E' then
      match rest with
      | '-' :: rest => (exponentDigits? rest).map fun n => -Int.ofNat n
      | '+' :: rest => (exponentDigits? rest).map Int.ofNat
      | rest => (exponentDigits? rest).map Int.ofNat
    else none

/-- A decimal fraction with optional sign and exponent. The outer `none` is for a text of another
form, the inner one for a number out of range. -/
def decimal? (cs : List Char) : Option (Option Binary64) :=
  let (negative, rest) := match cs with
    | '-' :: rest => (true, rest)
    | '+' :: rest => (false, rest)
    | rest => (false, rest)
  match fraction? rest with
  | none => none
  | some (n, places, rest) =>
    (exponent? rest).map fun e => Binary64.ofScientific? negative n (e - places)

end Polytype.Text
