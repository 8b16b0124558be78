import Polytype.Text.Numeral

/-!
# Dates and clock times

Readers for the parts of a date and of a clock time. A reader returns the number it read and what
follows it.
-/

namespace Polytype.Text

def isLeapYear (year : Nat) : Bool :=
  year % 4 = 0 && (year % 100 ≠ 0 || year % 400 = 0)

/-- How many days a month has, the months counted from 1. -/
def daysInMonth (year month : Nat) : Nat :=
  if month = 2 then (if isLeapYear year then 29 else 28)
  else if month = 4 || month = 6 || month = 9 || month = 11 then 30
  else 31

def isDate (year month day : Nat) : Bool :=
  1 ≤ month && month ≤ 12 && 1 ≤ day && day ≤ daysInMonth year month

/-- A number of exactly `count` digits. -/
def fixedDigits? (count : Nat) (cs : List Char) : Option (Nat × List Char) :=
  let front := cs.take count
  if front.length = count then (digits? 10 front).map fun n => (n, cs.drop count) else none

/-- A number of one digit, or of two where two stand. -/
def shortDigits? (cs : List Char) : Option (Nat × List Char) :=
  fixedDigits? 2 cs <|> fixedDigits? 1 cs

def after? (c : Char) : List Char → Option (List Char)
  | d :: rest => if d = c then some rest else none
  | [] => none

/-- What follows a fraction of a second, which may be left out. -/
def skipFraction : List Char → List Char
  | mark :: c :: rest =>
    if (mark = '.' || mark = ',') && c.isDigit then rest.dropWhile Char.isDigit
    else mark :: c :: rest
  | cs => cs

/-- A time zone: universal time, or an offset from it in hours and minutes. -/
def isTimeZone : List Char → Bool
  | ['Z'] => true
  | [sign, a, b, ':', c, d] =>
    (sign = '+' || sign = '-') && (digits? 10 [a, b]).any (· ≤ 24) &&
      (digits? 10 [c, d]).any (· ≤ 60)
  | _ => false

end Polytype.Text
