/-!
# Numerals

Integers in decimal digits, without leading zeros and with a sign only when negative; the numerals of
64-bit integers, which may carry either sign; and integers in the base that their first digits show.
-/

namespace Polytype.Text

/-! ## Decimal numerals -/

def naturalChars (n : Nat) : List Char := Nat.toDigits 10 n

/-- The decimal digits of an integer, after a minus sign when it is negative. -/
def integerChars : Int → List Char
  | .ofNat n => naturalChars n
  | .negSucc n => '-' :: naturalChars (n + 1)

def natural (n : Nat) : String := String.ofList (naturalChars n)

def integer (n : Int) : String := String.ofList (integerChars n)

/-- The value of a digit in a base up to 36, in either letter case. -/
def digitValue? (base : Nat) (c : Char) : Option Nat :=
  let value :=
    if c.isDigit then some (c.toNat - '0'.toNat)
    else if 'a' ≤ c && c ≤ 'z' then some (c.toNat - 'a'.toNat + 10)
    else if 'A' ≤ c && c ≤ 'Z' then some (c.toNat - 'A'.toNat + 10)
    else none
  value.filter (· < base)

/-- The number that digits in a base write after those read so far. -/
def digitsFrom? (base : Nat) : Nat → List Char → Option Nat
  | acc, [] => some acc
  | acc, c :: cs => do digitsFrom? base (acc * base + (← digitValue? base c)) cs

/-- The number that one or more digits in a base write. -/
def digits? (base : Nat) : List Char → Option Nat
  | [] => none
  | cs => digitsFrom? base 0 cs

/-- The integers that fit in 64 bits with a sign. -/
def isInt64 (n : Int) : Bool := -0x8000000000000000 ≤ n && n < 0x8000000000000000

/-- A decimal numeral with an optional sign, of a number in 64-bit range. -/
def int64? (cs : List Char) : Option Int :=
  let value := match cs with
    | '-' :: cs => (digits? 10 cs).map fun n => -Int.ofNat n
    | '+' :: cs => (digits? 10 cs).map Int.ofNat
    | cs => (digits? 10 cs).map Int.ofNat
  value.filter isInt64

/-! ## Bases -/

/-- Digits in the base that their start shows: `0x`, `0o` or `0b` in either letter case, a zero for
octal, and otherwise decimal. -/
def basedDigits? : List Char → Option Nat
  | ['0'] => some 0
  | ['0', c] => digits? 8 [c]
  | '0' :: c :: rest =>
    if c = 'x' || c = 'X' then digits? 16 rest
    else if c = 'o' || c = 'O' then digits? 8 rest
    else if c = 'b' || c = 'B' then digits? 2 rest
    else digits? 8 (c :: rest)
  | cs => digits? 10 cs

def signed? (number? : List Char → Option Nat) : List Char → Option Int
  | '-' :: rest => (number? rest).map fun n => -Int.ofNat n
  | '+' :: rest => (number? rest).map Int.ofNat
  | rest => (number? rest).map Int.ofNat

def withoutUnderscores (cs : List Char) : List Char := cs.filter (· ≠ '_')

/-- Every underscore stands between two characters that satisfy a test; `accept` says that one
stands just before. -/
def separates (isDigit : Char → Bool) : (accept : Bool) → List Char → Bool
  | _, [] => true
  | accept, '_' :: rest => accept && rest.head?.any isDigit && separates isDigit false rest
  | _, c :: rest => separates isDigit (isDigit c) rest

end Polytype.Text
