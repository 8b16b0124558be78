import Polytype.Text.Classes
import Polytype.Text.Source

/-!
# Tokens of type annotations

An annotation is a sequence of names and single marks, with blanks between them. `Tokens.ofSource`
lists them with the column where each starts. A character that may not occur at all ends the list:
it is met while the token before it is still being read, so that token is never delivered, unless a
blank lies between the two.
-/

namespace Polytype

open Polytype.Text

/-- A character that no annotation may hold. -/
inductive LexicalFault where
  | nul
  /-- A byte that is no part of valid UTF-8. -/
  | encoding
deriving DecidableEq, Repr

inductive Token where
  | ident (name : String)
  /-- A single character that belongs to no name. -/
  | mark (c : Char)
deriving DecidableEq

def Token.text : Token → String
  | ident name => name
  | mark c => String.singleton c

/-- The tokens of a source, each with the column of its first character. -/
inductive Tokens where
  | token (t : Token) (column : Nat) (rest : Tokens)
  | finish (column : Nat)
  /-- Reading stops at a character that may not occur. -/
  | fault (cause : LexicalFault) (column : Nat)
deriving DecidableEq

namespace Tokens

def column : Tokens → Nat
  | token _ column _ => column
  | finish column => column
  | fault _ column => column

/-! ## Character classes -/

def isNameStart (c : Char) : Bool := c == '_' || isLetter c

def isNamePart (c : Char) : Bool := c == '_' || isLetter c || isDecimalDigit c

/-- A character between tokens. -/
def isGap (c : Char) : Bool := c == ' ' || c == '\t' || c == '\n' || c == '\r'

/-- Why a symbol may not occur, if it may not. -/
def lexicalFault? : Option Char → Option LexicalFault
  | none => some .encoding
  | some c => if c.toNat = 0 then some .nul else none

/-! ## Reading -/

abbrev Placed := Option Char × Nat

/-- Gives every symbol its column, counted from 1 and restarting after a line feed; `column` is that
of the symbol before. The last number is the column of the end. -/
def place (column : Nat) : Source → List Placed × Nat
  | [] => ([], column + 1)
  | symbol :: rest =>
    let after := if symbol = some '\n' then 0 else column + 1
    let (placed, stop) := place after rest
    ((symbol, column + 1) :: placed, stop)

/-- The characters of a name at the front, and what follows them. -/
def spanName : List Placed → List Char × List Placed
  | [] => ([], [])
  | (symbol, column) :: rest =>
    match symbol with
    | some c =>
      if isNamePart c then
        let (name, rest) := spanName rest
        (c :: name, rest)
      else ([], (symbol, column) :: rest)
    | none => ([], (symbol, column) :: rest)

theorem length_spanName (l : List Placed) : (spanName l).2.length ≤ l.length := by
  fun_induction spanName l with
  | case1 => exact Nat.le_refl _
  | case2 column rest c _ name tail heq ih =>
    rw [heq] at ih
    exact Nat.le_succ_of_le ih
  | case3 | case4 => exact Nat.le_refl _

/-- The fault of the next symbol, if there is one. -/
def nextFault? : List Placed → Option LexicalFault
  | [] => none
  | (symbol, _) :: _ => lexicalFault? symbol

/-- Reads tokens; `last` is the column of the token before and `stop` that of the end. -/
def read (stop last : Nat) : List Placed → Tokens
  | [] => .finish stop
  | (none, _) :: _ => .fault .encoding last
  | (some c, column) :: rest =>
    if c.toNat = 0 then .fault .nul last
    else if isGap c then read stop last rest
    else if isNameStart c then
      let name := (spanName rest).1
      match nextFault? (spanName rest).2 with
      | some cause => .fault cause column
      | none =>
        .token (.ident (String.ofList (c :: name))) column (read stop column (spanName rest).2)
    else
      match nextFault? rest with
      | some cause => .fault cause column
      | none => .token (.mark c) column (read stop column rest)
termination_by l => l.length
decreasing_by
  · exact Nat.lt_succ_self _
  · exact Nat.lt_succ_of_le (length_spanName _)
  · exact Nat.lt_succ_self _

/-- The tokens of a source. A U+FEFF at its very start is dropped, though it takes up a column. -/
def ofSource (source : Source) : Tokens :=
  match source with
  | [] => .finish 0
  | source =>
    let (placed, stop) := place 0 source
    match placed with
    | (some c, _) :: rest => if c.toNat = 0xFEFF then read stop 0 rest else read stop 0 placed
    | placed => read stop 0 placed

end Tokens

end Polytype
