import Polytype.Toml.Atom
import Polytype.Toml.Literal

/-!
# Reading a TOML text

Each reader takes characters from the front of a text and returns what it read and the rest, or
nothing where the text breaks the rules. Nested values are read within a budget, which the length of
the text bounds.
-/

namespace Polytype.Toml

open Polytype.Text

/-- A reader of some part of a text. -/
abbrev Reader (α : Type) := List Char → Option (α × List Char)

/-! ## Characters -/

def isWhite (c : Char) : Bool := c == ' ' || c == '\t'

def isLineEnd (c : Char) : Bool := c == '\n' || c == '\r'

/-- A text has no control characters but tabs and line ends, and a carriage return only before a
line feed. -/
def wellFormed : List Char → Bool
  | [] => true
  | c :: rest =>
    (if c == '\r' then rest.head? == some '\n'
      else c == '\t' || c == '\n' || (0x20 ≤ c.toNat && c.toNat ≠ 0x7F)) && wellFormed rest

def skipWhite (cs : List Char) : List Char := cs.dropWhile isWhite

def skipComment (cs : List Char) : List Char := cs.dropWhile fun c => !isLineEnd c

/-- The text without white space, line ends and comments at its front. `budget` bounds the number of
comments. -/
def skipLines : (budget : Nat) → List Char → List Char
  | 0, cs => cs
  | budget + 1, cs =>
    match cs.dropWhile fun c => isWhite c || isLineEnd c with
    | '#' :: rest => skipLines budget (skipComment rest)
    | rest => rest

/-! ## Strings -/

/-- The character with a number in hexadecimal digits, of which there are `count`. -/
def hexChar? (count : Nat) (cs : List Char) : Option Char :=
  let digits := cs.take count
  if digits.length = count then
    (digits? 16 digits).bind fun n =>
      if h : n.isValidChar then some (Char.ofNatAux n h) else none
  else none

/-- The character that an escape stands for and how many characters after the backslash it takes. -/
def escape? : List Char → Option (Char × Nat)
  | [] => none
  | c :: rest =>
    match c with
    | 'b' => some ('\x08', 1)
    | 't' => some ('\t', 1)
    | 'n' => some ('\n', 1)
    | 'f' => some ('\x0c', 1)
    | 'r' => some ('\r', 1)
    | 'e' => some ('\x1b', 1)
    | '"' => some ('"', 1)
    | '\\' => some ('\\', 1)
    | 'x' => (hexChar? 2 rest).map (·, 3)
    | 'u' => (hexChar? 4 rest).map (·, 5)
    | 'U' => (hexChar? 8 rest).map (·, 9)
    | _ => none

/-- A string on one line after its opening quote. `out` holds what was read, the latest first, and
`skip` counts characters that an escape has taken already. -/
def basicString (out : List Char) : (skip : Nat) → Reader String
  | _, [] => none
  | skip + 1, _ :: rest => basicString out skip rest
  | 0, c :: rest =>
    if c == '"' then some (String.ofList out.reverse, rest)
    else if isLineEnd c then none
    else if c == '\\' then
      match escape? rest with
      | some (d, count) => basicString (d :: out) count rest
      | none => none
    else basicString (c :: out) 0 rest

/-- A string on one line without escapes, after its opening quote. -/
def rawString (cs : List Char) : Option (String × List Char) :=
  match cs.dropWhile fun c => c ≠ '\'' && !isLineEnd c with
  | '\'' :: rest => some (String.ofList (cs.takeWhile (· ≠ '\'')), rest)
  | _ => none

/-- How many characters of white space a backslash takes that ends a line: all up to the next
text. -/
def lineEscape? (cs : List Char) : Option Nat :=
  let gap := cs.takeWhile fun c => isWhite c || isLineEnd c
  if gap.contains '\n' then some gap.length else none

/-- A string on several lines after its opening quotes. Three quotes end it, and of up to five in a
row the first ones belong to it. -/
def longString (quote : Char) (escapes : Bool) (out : List Char) : (skip : Nat) → Reader String
  | _, [] => none
  | skip + 1, _ :: rest => longString quote escapes out skip rest
  | 0, c :: rest =>
    if c == quote then
      let more := (rest.takeWhile (· = quote)).length
      if more < 2 then longString quote escapes (List.replicate (more + 1) quote ++ out) more rest
      else if more < 5 then
        some (String.ofList (List.replicate (more - 2) quote ++ out).reverse, rest.drop more)
      else none
    else if escapes && c == '\\' then
      match lineEscape? rest with
      | some count => longString quote escapes out count rest
      | none =>
        match escape? rest with
        | some (d, count) => longString quote escapes (d :: out) count rest
        | none => none
    else longString quote escapes (c :: out) 0 rest

def skipLineEnd : List Char → List Char
  | '\n' :: rest => rest
  | '\r' :: '\n' :: rest => rest
  | cs => cs

/-- A string in any of its four forms, if one starts here. -/
def string? (cs : List Char) : Option (String × List Char) :=
  match cs with
  | '"' :: '"' :: '"' :: rest => longString '"' true [] 0 (skipLineEnd rest)
  | '\'' :: '\'' :: '\'' :: rest => longString '\'' false [] 0 (skipLineEnd rest)
  | '"' :: rest => basicString [] 0 rest
  | '\'' :: rest => rawString rest
  | _ => none

/-! ## Keys -/

def keyPart (cs : List Char) : Option (String × List Char) :=
  match cs with
  | '"' :: rest => basicString [] 0 rest
  | '\'' :: rest => rawString rest
  | cs =>
    let part := cs.takeWhile isBare
    if part.isEmpty then none else some (String.ofList part, cs.drop part.length)

/-- A key up to a closing character, which is taken too. -/
def key (close : Char) : (budget : Nat) → Reader Path
  | 0, _ => none
  | budget + 1, cs => do
    let (part, rest) ← keyPart (skipWhite cs)
    match skipWhite rest with
    | c :: rest =>
      if c = close then some ([part], rest)
      else if c = '.' then
        let (parts, rest) ← key close budget rest
        some (part :: parts, rest)
      else none
    | [] => none

/-! ## Values -/

/-- The items of an array and its closing bracket. -/
def arrayItems (value : Reader Literal) : (budget : Nat) → Reader (List Literal)
  | 0, _ => none
  | budget + 1, cs =>
    match skipLines cs.length cs with
    | ']' :: rest => some ([], rest)
    | cs => do
      let (item, rest) ← value cs
      match skipLines rest.length rest with
      | ']' :: rest => some ([item], rest)
      | ',' :: rest =>
        let (items, rest) ← arrayItems value budget rest
        some (item :: items, rest)
      | _ => none

/-- The members of an inline table and its closing brace. -/
def inlineMembers (value : Reader Literal) : (budget : Nat) → Reader (List Member)
  | 0, _ => none
  | budget + 1, cs =>
    match skipLines cs.length cs with
    | '\x7d' :: rest => some ([], rest)
    | cs => do
      let (path, rest) ← key '=' cs.length cs
      let (item, rest) ← value rest
      match skipLines rest.length rest with
      | '\x7d' :: rest => some ([.mk path item], rest)
      | ',' :: rest =>
        let (members, rest) ← inlineMembers value budget rest
        some (.mk path item :: members, rest)
      | _ => none

/-- A value. `budget` bounds its depth and the length of its collections. -/
def value : (budget : Nat) → Reader Literal
  | 0, _ => none
  | budget + 1, cs =>
    match skipWhite cs with
    | '[' :: rest =>
      (arrayItems (value budget) budget rest).map fun (items, rest) => (.array items, rest)
    | '\x7b' :: rest =>
      (inlineMembers (value budget) budget rest).map fun (members, rest) => (.inline members, rest)
    | 't' :: 'r' :: 'u' :: 'e' :: rest => some (.flag true, rest)
    | 'f' :: 'a' :: 'l' :: 's' :: 'e' :: rest => some (.flag false, rest)
    | '"' :: rest => (string? ('"' :: rest)).map fun (s, rest) => (.text s, rest)
    | '\'' :: rest => (string? ('\'' :: rest)).map fun (s, rest) => (.text s, rest)
    | cs => (atom? cs).map (Literal.scalar, ·)

/-! ## Statements -/

def statement (cs : List Char) : Option (Statement × List Char) :=
  match cs with
  | '[' :: '[' :: rest => do
    let (path, rest) ← key ']' rest.length rest
    return (.header path true, ← after? ']' rest)
  | '[' :: rest => do
    let (path, rest) ← key ']' rest.length rest
    return (.header path false, rest)
  | cs => do
    let (path, rest) ← key '=' cs.length cs
    let (item, rest) ← value rest.length rest
    return (.assign path item, rest)

/-- What follows the end of a statement: white space and a comment up to the line's end. -/
def statementEnd (cs : List Char) : Option (List Char) :=
  match skipWhite cs with
  | [] => some []
  | '#' :: rest => some (skipComment rest)
  | c :: rest => if isLineEnd c then some rest else none

def statements : (budget : Nat) → List Char → Option (List Statement)
  | 0, _ => none
  | budget + 1, cs =>
    match skipLines cs.length cs with
    | [] => some []
    | cs => do
      let (first, rest) ← statement cs
      return first :: (← statements budget (← statementEnd rest))

/-- The statements of a whole text. A U+FEFF at the start is dropped. -/
def Statement.ofText? (text : String) : Option (List Statement) :=
  let cs := match text.toList with
    | c :: rest => if c.toNat = 0xFEFF then rest else c :: rest
    | [] => []
  if wellFormed cs then statements (cs.length + 1) cs else none

end Polytype.Toml
