import Polytype.Text.Numeral
import Polytype.Yaml.Cursor

/-!
# Scalars as they are written

A scalar is plain, in quotes, or a block of indented lines. Line breaks inside one are folded: a
single break reads as a space, and of several the first is dropped. Each reader returns the text and
the cursor after it, or nothing where the text breaks the rules of its form.
-/

namespace Polytype.Yaml

inductive Style where
  | plain
  | singleQuoted
  | doubleQuoted
  | literal
  | folded
deriving DecidableEq, Repr

/-! ## Gaps between words -/

/-- White space inside a scalar that is not known yet to be followed by more of its text. -/
structure Gap where
  blanks : List Char
  broken : Bool
  /-- The first line break, unless it was escaped. -/
  first : Option Char
  /-- The line breaks after the first, the latest first. -/
  more : List Char

namespace Gap

def empty : Gap := ⟨[], false, none, []⟩

/-- An escaped line break, which stands for nothing. -/
def escapedBreak : Gap := ⟨[], true, none, []⟩

/-- One more character of white space. Blanks around a line break are dropped. -/
def add (g : Gap) (c : Char) : Gap :=
  if isBreak c then
    if g.broken then { g with more := c :: g.more } else ⟨[], true, some c, []⟩
  else if g.broken then g
  else { g with blanks := c :: g.blanks }

def text (g : Gap) : List Char :=
  if g.broken then
    match g.first with
    | some '\n' => if g.more.isEmpty then [' '] else g.more.reverse
    | some c => c :: g.more.reverse
    | none => g.more.reverse
  else g.blanks.reverse

end Gap

/-! ## Plain scalars -/

structure PlainScalar where
  text : List Char
  cursor : Cursor
  broken : Bool

/-- A character that ends a plain scalar before the rest of the text: a colon before a gap, and
inside brackets also a mark that has a meaning there. -/
def endsPlain (inFlow : Bool) (c : Char) (rest : List Char) : Bool :=
  (c == ':' && atGap rest) ||
    (inFlow && (c == ',' || c == '[' || c == ']' || c == '\x7b' || c == '\x7d' ||
      (c == '?' && atGap rest && rest.head? != some '\t')))

/-- Reads a plain scalar. `indent` is the least column of its lines outside brackets; `out` holds
what was read, the latest first; `afterGap` says that white space stands just before. -/
def plainFrom (inFlow : Bool) (indent : Int) (out : List Char) (gap : Gap) (afterGap : Bool)
    (place : Place) : List Char → Option PlainScalar
  | [] => some ⟨out.reverse, ⟨place, []⟩, gap.broken⟩
  | c :: rest =>
    let stop : PlainScalar := ⟨out.reverse, ⟨place, c :: rest⟩, gap.broken⟩
    if isGap c then
      if c == '\t' && gap.broken && place.column < indent then none
      else plainFrom inFlow indent out (gap.add c) true (place.after c) rest
    else if afterGap && ((!inFlow && place.column < indent) || c == '#' ||
        (place.column == 0 && atDocumentMark (c :: rest))) then some stop
    else if endsPlain inFlow c rest then some stop
    else
      plainFrom inFlow indent (c :: (gap.text.reverse ++ out)) .empty false (place.after c) rest

/-! ## Quoted scalars -/

def hexEscape? (count : Nat) (cs : List Char) : Option Char :=
  let digits := cs.take count
  if digits.length = count then
    (Text.digits? 16 digits).bind fun n =>
      if h : n.isValidChar then some (Char.ofNatAux n h) else none
  else none

/-- The character that an escape stands for and how many characters after the backslash it takes. -/
def escape? : List Char → Option (Char × Nat)
  | [] => none
  | c :: rest =>
    match c with
    | '0' => some ('\x00', 1)
    | 'a' => some ('\x07', 1)
    | 'b' => some ('\x08', 1)
    | 't' => some ('\t', 1)
    | '\t' => some ('\t', 1)
    | 'n' => some ('\n', 1)
    | 'v' => some ('\x0b', 1)
    | 'f' => some ('\x0c', 1)
    | 'r' => some ('\r', 1)
    | 'e' => some ('\x1b', 1)
    | ' ' => some (' ', 1)
    | '"' => some ('"', 1)
    | '\'' => some ('\'', 1)
    | '\\' => some ('\\', 1)
    | 'N' => some ('\u0085', 1)
    | '_' => some ('\u00a0', 1)
    | 'L' => some ('\u2028', 1)
    | 'P' => some ('\u2029', 1)
    | 'x' => (hexEscape? 2 rest).map (·, 3)
    | 'u' => (hexEscape? 4 rest).map (·, 5)
    | 'U' => (hexEscape? 8 rest).map (·, 9)
    | _ => none

/-- Reads a quoted scalar after its opening quote. `out` holds what was read, the latest first, and
`skip` counts characters at the front that an escape has taken already. -/
def quotedFrom (double : Bool) (out : List Char) (gap : Gap) (place : Place) :
    (skip : Nat) → List Char → Option (List Char × Cursor)
  | _, [] => none
  | skip + 1, c :: rest => quotedFrom double out gap (place.after c) skip rest
  | 0, c :: rest =>
    if isGap c then quotedFrom double out (gap.add c) (place.after c) 0 rest
    else if place.column == 0 && atDocumentMark (c :: rest) then none
    else
      let out := gap.text.reverse ++ out
      if c == (if double then '"' else '\'') then
        if !double && rest.head? == some '\'' then
          quotedFrom double ('\'' :: out) .empty (place.after c) 1 rest
        else some (out.reverse, ⟨place.after c, rest⟩)
      else if double && c == '\\' then
        if rest.head?.any isBreak then quotedFrom double out .escapedBreak (place.after c) 1 rest
        else match escape? rest with
          | some (d, count) => quotedFrom double (d :: out) .empty (place.after c) count rest
          | none => none
      else quotedFrom double (c :: out) .empty (place.after c) 0 rest

/-! ## Block scalars -/

/-- What becomes of the line breaks at the end of a block scalar. -/
inductive Chomping where
  | strip
  /-- The one that ends the last line stays. -/
  | clip
  | keep
deriving DecidableEq

def chomping? : Char → Option Chomping
  | '+' => some .keep
  | '-' => some .strip
  | _ => none

def indentDigit? (c : Char) : Option Nat :=
  if c.isDigit then some (c.toNat - '0'.toNat) else none

/-- Reads the header of a block scalar: a sign and a digit in either order, both optional. A zero
digit is refused. -/
def blockHeader? (cs : List Char) : Option (Chomping × Option Nat × Nat) :=
  let first := cs.head?
  let second := cs.tail.head?
  let (chomping, digit, count) := match first.bind chomping?, first.bind indentDigit? with
    | some chomping, _ =>
      match second.bind indentDigit? with
      | some n => (chomping, some n, 2)
      | none => (chomping, none, 1)
    | none, some n =>
      match second.bind chomping? with
      | some chomping => (chomping, some n, 2)
      | none => (.clip, some n, 1)
    | none, none => (.clip, none, 0)
  if digit = some 0 then none else some (chomping, digit, count)

/-- Passes over empty lines and indentation up to the column `limit`, or over all indentation where
it is `none`. Returns the line breaks, the latest first, the greatest column met and the cursor. A
tab in the indentation is refused. -/
def blockIndent (limit : Option Nat) (breaks : List Char) (deepest : Nat) (place : Place) :
    List Char → Option (List Char × Nat × Cursor)
  | [] => some (breaks, max deepest place.column, ⟨place, []⟩)
  | c :: rest =>
    let inside := limit.all (place.column < ·)
    if c == ' ' && inside then blockIndent limit breaks deepest (place.after c) rest
    else if c == '\t' && inside then none
    else if isBreak c then
      blockIndent limit (c :: breaks) (max deepest place.column) (place.after c) rest
    else some (breaks, max deepest place.column, ⟨place, c :: rest⟩)

structure BlockText where
  out : List Char
  lineBreak : Option Char
  /-- The breaks of the empty lines after it, the latest first. -/
  empty : List Char
  /-- The last line starts with white space, so that its break is not folded. -/
  indented : Bool

namespace BlockText

/-- Adds a line of text. Between two lines of a folded block that start without white space, the
break reads as a space, or as nothing where empty lines stand between. -/
def addLine (fold : Bool) (t : BlockText) (line : List Char) (lineBreak : Option Char) :
    BlockText :=
  let indented := line.head?.any isWhite
  let joint :=
    if fold && !t.indented && !indented && t.lineBreak == some '\n' then
      if t.empty.isEmpty then [' '] else []
    else t.lineBreak.toList
  ⟨line.reverse ++ (t.empty ++ (joint ++ t.out)), lineBreak, [], indented⟩

def finish (t : BlockText) (chomping : Chomping) : List Char :=
  let tail := match chomping with
    | .strip => []
    | .clip => t.lineBreak.toList
    | .keep => t.lineBreak.toList ++ t.empty.reverse
  t.out.reverse ++ tail

end BlockText

/-- Reads the lines of a block scalar, which all start at the column `indent`. `budget` bounds their
number. -/
def blockLines (fold : Bool) (indent : Nat) :
    (budget : Nat) → BlockText → Cursor → Option (BlockText × Cursor)
  | 0, t, cursor => some (t, cursor)
  | budget + 1, t, cursor =>
    if cursor.column == indent && !cursor.rest.isEmpty then
      let line := cursor.front fun d => !isBreak d
      let cursor := cursor.skip line.length
      let t := t.addLine fold line cursor.rest.head?
      let cursor := cursor.skip 1
      (blockIndent (some indent) [] 0 cursor.place cursor.rest).bind fun (breaks, _, cursor) =>
        blockLines fold indent budget { t with empty := breaks } cursor
    else some (t, cursor)

/-- Reads a block scalar after the mark that starts it. `parent` is the indentation of the
collection around it, -1 for none. -/
def block? (fold : Bool) (parent : Int) (cursor : Cursor) : Option (List Char × Cursor) := do
  let (chomping, digit, count) ← blockHeader? cursor.rest
  let cursor := (cursor.skip count).skipWhile isWhite
  let cursor := if cursor.rest.head? = some '#' then cursor.skipLine else cursor
  if !atLineEnd cursor.rest then none
  else
    let cursor := cursor.skip 1
    let limit := digit.map fun n => parent.toNat + n
    let (breaks, deepest, cursor) ← blockIndent limit [] 0 cursor.place cursor.rest
    -- without a digit the deepest of the leading empty lines may set the column
    let indent := limit.getD (max deepest (max (parent + 1).toNat 1))
    let (text, cursor) ←
      blockLines fold indent cursor.rest.length ⟨[], none, breaks, false⟩ cursor
    return (text.finish chomping, cursor)

end Polytype.Yaml
