/-!
# Places in a text

Characters of a YAML text by class, and the place of a character: its line and column. The text is
taken with its line breaks made uniform, so that every break is a single character.
-/

namespace Polytype.Yaml

/-! ## Characters -/

def isWhite (c : Char) : Bool := c == ' ' || c == '\t'

/-- A line break. The two Unicode separators are kept apart from the line feed, since folding keeps
them. -/
def isBreak (c : Char) : Bool := c == '\n' || c.toNat == 0x2028 || c.toNat == 0x2029

def isGap (c : Char) : Bool := isWhite c || isBreak c

def isWord (c : Char) : Bool := c.isAlphanum || c == '_' || c == '-'

/-- A character that a text may hold. -/
def isAllowed (c : Char) : Bool :=
  let n := c.toNat
  n == 0x09 || n == 0x0A || n == 0x0D || (0x20 ≤ n && n ≤ 0x7E) || n == 0x85 ||
    (0xA0 ≤ n && n ≤ 0xD7FF) || (0xE000 ≤ n && n ≤ 0xFFFD) || 0x10000 ≤ n

/-- Makes line breaks uniform: a carriage return, alone or before a line feed, and a next-line
character become a line feed. -/
def uniformBreaks : List Char → List Char
  | [] => []
  | '\r' :: '\n' :: rest => '\n' :: uniformBreaks rest
  | c :: rest =>
    (if c == '\r' || c.toNat == 0x85 then '\n' else c) :: uniformBreaks rest

def atGap : List Char → Bool
  | [] => true
  | c :: _ => isGap c

def atLineEnd : List Char → Bool
  | [] => true
  | c :: _ => isBreak c

/-- A mark that starts or ends a document stands here, if this is the start of a line. -/
def atDocumentMark (cs : List Char) : Bool :=
  (cs.take 3 = ['-', '-', '-'] || cs.take 3 = ['.', '.', '.']) && atGap (cs.drop 3)

/-! ## Places -/

/-- A line and a column as they are reported, both counted from 1. -/
structure Mark where
  line : Nat
  column : Nat
deriving DecidableEq, Repr

/-- The place of a character: how many characters, lines, and characters of its line stand before
it. -/
structure Place where
  index : Nat
  line : Nat
  column : Nat
deriving DecidableEq, Repr

namespace Place

def start : Place := ⟨0, 0, 0⟩

def mark (p : Place) : Mark := ⟨p.line + 1, p.column + 1⟩

def after (p : Place) (c : Char) : Place :=
  if isBreak c then ⟨p.index + 1, p.line + 1, 0⟩ else ⟨p.index + 1, p.line, p.column + 1⟩

end Place

/-- A place and the text that starts there. -/
structure Cursor where
  place : Place
  rest : List Char

namespace Cursor

/-- The cursor after the next `count` characters. -/
def skip : (count : Nat) → Cursor → Cursor
  | 0, c => c
  | _ + 1, ⟨place, []⟩ => ⟨place, []⟩
  | count + 1, ⟨place, c :: rest⟩ => skip count ⟨place.after c, rest⟩

/-- The characters at the front that satisfy a test. -/
def front (p : Char → Bool) (c : Cursor) : List Char := c.rest.takeWhile p

def skipWhile (p : Char → Bool) (c : Cursor) : Cursor := c.skip (c.front p).length

def column (c : Cursor) : Nat := c.place.column

def skipLine (c : Cursor) : Cursor := c.skipWhile fun d => !isBreak d

end Cursor

end Polytype.Yaml
