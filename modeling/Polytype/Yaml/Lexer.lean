import Polytype.Yaml.Token

/-!
# Reading the tokens of a YAML text

A key of a mapping needs no mark of its own: it is known for a key once the colon after it is met.
Until then its place among the tokens is kept, so that the mark, and the start of a mapping if one
begins there, can be put in before it. Such a key has to stand on one line and to be at most 1024
characters long.

The reader of nodes takes tokens only while two more are known to follow. `Tokens.ofText` gives it
all tokens that it can take: where the text holds a fault, the two tokens before it are left out.
-/

namespace Polytype.Yaml

/-- A token that a colon would make the key of a mapping. -/
structure PendingKey where
  position : Nat
  place : Place
  /-- Nothing else than a key may stand here. -/
  required : Bool

/-- A colon at the given place can still make the token a key. -/
def PendingKey.reaches (k : PendingKey) (p : Place) : Bool :=
  k.place.line = p.line && p.index ≤ k.place.index + 1024

structure Lexer where
  cursor : Cursor
  tokens : Array Token
  /-- The column of the innermost block collection, -1 outside all of them. -/
  indent : Int
  /-- The columns of the block collections around it, the innermost first. -/
  outerIndents : List Int
  /-- The pending key inside the innermost brackets, and those around them. -/
  key : Option PendingKey
  outerKeys : List (Option PendingKey)
  /-- A key may start here without a mark. -/
  keyAllowed : Bool

namespace Lexer

def start (text : List Char) : Lexer :=
  ⟨⟨.start, text⟩, #[], -1, [], none, [], true⟩

def inFlow (l : Lexer) : Bool := !l.outerKeys.isEmpty

def push (l : Lexer) (kind : TokenKind) (start stop : Place) : Lexer :=
  { l with tokens := l.tokens.push ⟨kind, start.mark, stop.mark⟩ }

/-- Appends a token of the next `count` characters and passes over them. -/
def take (l : Lexer) (count : Nat) (kind : TokenKind) : Lexer :=
  let cursor := l.cursor.skip count
  { l.push kind l.cursor.place cursor.place with cursor }

def takeTo (l : Lexer) (cursor : Cursor) (kind : TokenKind) : Lexer :=
  { l.push kind l.cursor.place cursor.place with cursor }

/-! ## Pending keys -/

/-- Forgets the pending key. One that is required is a fault. -/
def dropKey? (l : Lexer) : Option Lexer :=
  if l.key.any (·.required) then none else some { l with key := none }

/-- Notes that the next token may be a key, where that is allowed. -/
def noteKey? (l : Lexer) : Option Lexer :=
  if l.keyAllowed then
    l.dropKey?.map fun l =>
      -- at the column of a block mapping only another of its keys can stand
      let required := !l.inFlow && l.indent = l.cursor.column
      { l with key := some ⟨l.tokens.size, l.cursor.place, required⟩ }
  else some l

/-! ## Indentation -/

/-- Ends the block collections whose column is right of the given one. -/
def endBlocksFrom (column : Int) (place : Place) (l : Lexer) : (outer : List Int) → Lexer
  | [] => l
  | indent :: outer =>
    if column < l.indent then
      endBlocksFrom column place
        { l.push .blockEnd place place with indent, outerIndents := outer } outer
    else l

/-- Ends the block collections whose column is right of the given one, except inside brackets. -/
def endBlocks (column : Int) (place : Place) (l : Lexer) : Lexer :=
  if l.inFlow then l else endBlocksFrom column place l l.outerIndents

/-- Starts a block collection at a place unless the innermost one has that column already; its token
is put in at the given position. -/
def startBlock (l : Lexer) (kind : TokenKind) (place : Place) (position : Nat) : Lexer :=
  if !l.inFlow && l.indent < place.column then
    { l with
      tokens := l.tokens.insertIdxIfInBounds position ⟨kind, place.mark, place.mark⟩
      indent := place.column
      outerIndents := l.indent :: l.outerIndents }
  else l

/-! ## Between tokens -/

/-- Passes over a comment, and on to the next one if only white space stands between. -/
def skipComments (cursor : Cursor) : (budget : Nat) → Cursor
  | 0 => cursor
  | budget + 1 =>
    let stop := cursor.skipLine
    let next := stop.skipWhile isGap
    if next.rest.head? = some '#' then skipComments next budget else stop

/-- Passes over white space and comments. Outside brackets a tab counts as white space only where no
key may start, and after a line break one may. -/
def skipGap (inFlow : Bool) (keyAllowed : Bool) (cursor : Cursor) : (budget : Nat) → Bool × Cursor
  | 0 => (keyAllowed, cursor)
  | budget + 1 =>
    let cursor := cursor.skipWhile fun c => c == ' ' || ((inFlow || !keyAllowed) && c == '\t')
    let cursor :=
      if cursor.rest.head? = some '#' then skipComments cursor cursor.rest.length else cursor
    if cursor.rest.head?.any isBreak then
      skipGap inFlow (keyAllowed || !inFlow) (cursor.skip 1) budget
    else (keyAllowed, cursor)

def skipTrailingComment (l : Lexer) : Lexer :=
  let cursor := l.cursor.skipWhile isWhite
  if cursor.rest.head? = some '#' then { l with cursor := cursor.skipLine } else l

/-! ## Single tokens -/

def openFlow? (l : Lexer) (kind : TokenKind) : Option Lexer :=
  l.noteKey?.map fun l =>
    { l with key := none, outerKeys := l.key :: l.outerKeys, keyAllowed := true }.take 1 kind

def closeFlow? (l : Lexer) (kind : TokenKind) : Option Lexer :=
  l.dropKey?.map fun l =>
    let (key, outerKeys) := match l.outerKeys with
      | [] => (none, [])
      | key :: outer => (key, outer)
    { l with key, outerKeys, keyAllowed := false }.take 1 kind

def comma? (l : Lexer) : Option Lexer :=
  l.dropKey?.map fun l => { l with keyAllowed := true }.take 1 .comma

def item? (l : Lexer) : Option Lexer :=
  if !l.inFlow && !l.keyAllowed then none
  else
    (l.startBlock .blockSequence l.cursor.place l.tokens.size).dropKey?.map fun l =>
      { l with keyAllowed := true }.take 1 .item

def key? (l : Lexer) : Option Lexer :=
  if !l.inFlow && !l.keyAllowed then none
  else
    (l.startBlock .blockMapping l.cursor.place l.tokens.size).dropKey?.map fun l =>
      { l with keyAllowed := !l.inFlow }.take 1 .key

/-- The colon before a value. It makes the pending key a key, if there is one. -/
def value? (l : Lexer) : Option Lexer :=
  match l.key.filter (·.reaches l.cursor.place) with
  | some k =>
    let mark := k.place.mark
    let l := { l with tokens := l.tokens.insertIdxIfInBounds k.position ⟨.key, mark, mark⟩ }
    let l := l.startBlock .blockMapping k.place k.position
    some ({ l with key := none, keyAllowed := false }.take 1 .value)
  | none =>
    if l.key.any (·.required) then none
    else if l.inFlow then some ({ l with key := none, keyAllowed := false }.take 1 .value)
    else if l.keyAllowed then
      let l := l.startBlock .blockMapping l.cursor.place l.tokens.size
      some ({ l with key := none, keyAllowed := true }.take 1 .value)
    else none

def endsName : List Char → Bool
  | [] => true
  | c :: _ => isGap c || ['?', ':', ',', ']', '\x7d', '%', '@', '\x60'].contains c

/-- An anchor or an alias, by the constructor of its token. -/
def anchor? (l : Lexer) (kind : String → TokenKind) : Option Lexer :=
  l.noteKey?.bind fun l =>
    let cursor := l.cursor.skip 1
    let name := cursor.front isWord
    let cursor := cursor.skip name.length
    if name.isEmpty || !endsName cursor.rest then none
    else some ({ l with keyAllowed := false }.takeTo cursor (kind (String.ofList name)))

def quoted? (l : Lexer) (double : Bool) : Option Lexer :=
  l.noteKey?.bind fun l =>
    let cursor := l.cursor.skip 1
    (quotedFrom double [] .empty cursor.place 0 cursor.rest).map fun (text, cursor) =>
      let style := if double then .doubleQuoted else .singleQuoted
      { l with keyAllowed := false }.takeTo cursor (.scalar style (String.ofList text))

def blockScalar? (l : Lexer) (fold : Bool) : Option Lexer :=
  l.dropKey?.bind fun l =>
    (block? fold l.indent (l.cursor.skip 1)).map fun (text, cursor) =>
      let style := if fold then .folded else .literal
      { l with keyAllowed := true }.takeTo cursor (.scalar style (String.ofList text))

def plain? (l : Lexer) : Option Lexer :=
  l.noteKey?.bind fun l =>
    (plainFrom l.inFlow (l.indent + 1) [] .empty false l.cursor.place l.cursor.rest).map fun s =>
      { l with keyAllowed := s.broken }.takeTo s.cursor (.scalar .plain (String.ofList s.text))

/-! ## Tags and directives -/

def isTagPart (c : Char) : Bool :=
  isWord c || [';', '/', '?', ':', '@', '&', '=', '+', '$', ',', '.', '!', '~', '*', '\'', '(', ')',
    '[', ']', '%'].contains c

/-- The text with its percent escapes replaced by the bytes they name. -/
def unescapeTag? : List Char → Option (List UInt8)
  | [] => some []
  | '%' :: a :: b :: rest => do
    let n ← Text.digits? 16 [a, b]
    return n.toUInt8 :: (← unescapeTag? rest)
  | c :: rest =>
    if c = '%' then none else (unescapeTag? rest).map ((String.singleton c).toUTF8.toList ++ ·)

def tagText? (cs : List Char) : Option String := do
  String.fromUTF8? ⟨(← unescapeTag? cs).toArray⟩

/-- A handle at the front: an exclamation mark, and a name and another mark if those follow. -/
def tagHandleLength (cs : List Char) : Nat :=
  let name := cs.tail.takeWhile isWord
  if (cs.drop (name.length + 1)).head? = some '!' then name.length + 2 else name.length + 1

/-- A tag: in full between angle brackets, or a handle and what follows it. A single exclamation
mark has no handle. -/
def tag? (l : Lexer) : Option Lexer :=
  l.noteKey?.bind fun l => do
    let l := { l with keyAllowed := false }
    if l.cursor.rest.tail.head? = some '<' then
      let cursor := l.cursor.skip 2
      let front := cursor.front isTagPart
      let cursor := cursor.skip front.length
      let suffix ← tagText? front
      if front.isEmpty || cursor.rest.head? ≠ some '>' || !atGap cursor.rest.tail then none
      else some (l.takeTo (cursor.skip 1) (.tag "" suffix))
    else
      let count := tagHandleLength l.cursor.rest
      let handle := l.cursor.rest.take count
      let cursor := l.cursor.skip count
      let front := cursor.front isTagPart
      let cursor := cursor.skip front.length
      let named := 1 < count && handle.getLast? = some '!'
      let suffix ← tagText? front
      if !atGap cursor.rest || (named && front.isEmpty) then none
      else if named then some (l.takeTo cursor (.tag (String.ofList handle) suffix))
      else
        let suffix := String.ofList handle.tail ++ suffix
        some (l.takeTo cursor (if suffix.isEmpty then .tag "" "!" else .tag "!" suffix))

/-- The version that a directive names: two numbers with a point between. -/
def versionDirective? (cursor : Cursor) : Option (TokenKind × Cursor) := do
  let cursor := cursor.skipWhile isWhite
  let major := cursor.front Char.isDigit
  let cursor := cursor.skip major.length
  if cursor.rest.head? ≠ some '.' then none
  else
    let cursor := cursor.skip 1
    let minor := cursor.front Char.isDigit
    if 9 < major.length || 9 < minor.length then none
    else
      return (.version (← Text.digits? 10 major) (← Text.digits? 10 minor),
        cursor.skip minor.length)

def handleDirective? (cursor : Cursor) : Option (TokenKind × Cursor) := do
  let cursor := cursor.skipWhile isWhite
  let count := tagHandleLength cursor.rest
  let handle := cursor.rest.take count
  if cursor.rest.head? ≠ some '!' || handle.getLast? ≠ some '!' then none
  else
    let cursor := cursor.skip count
    if !cursor.rest.head?.any isWhite then none
    else
      let cursor := cursor.skipWhile isWhite
      let meaning := cursor.front isTagPart
      let cursor := cursor.skip meaning.length
      if meaning.isEmpty || !atGap cursor.rest then none
      else return (.tagHandle (String.ofList handle) (← tagText? meaning), cursor)

/-- A directive, which takes a line of its own. -/
def directive? (l : Lexer) : Option Lexer :=
  (l.endBlocks (-1) l.cursor.place).dropKey?.bind fun l => do
    let cursor := l.cursor.skip 1
    let name := String.ofList (cursor.front isWord)
    let cursor := cursor.skipWhile isWord
    let (kind, cursor) ←
      if !atGap cursor.rest then none
      else if name = "YAML" then versionDirective? cursor
      else if name = "TAG" then handleDirective? cursor
      else none
    let l := { l with keyAllowed := false }.takeTo cursor kind
    let cursor := cursor.skipWhile isWhite
    let cursor := if cursor.rest.head? = some '#' then cursor.skipLine else cursor
    if atLineEnd cursor.rest then some { l with cursor := cursor.skip 1 } else none

/-! ## The whole text -/

def documentMark? (l : Lexer) (kind : TokenKind) : Option Lexer :=
  (l.endBlocks (-1) l.cursor.place).dropKey?.map fun l =>
    { l with keyAllowed := false }.take 3 kind

/-- The end of the text, which counts as the start of a line. -/
def finish? (l : Lexer) : Option Lexer :=
  let p := l.cursor.place
  let place : Place := if p.column = 0 then p else ⟨p.index, p.line + 1, 0⟩
  (l.endBlocks (-1) place).dropKey?.map (·.push .finish place place)

/-- A character that starts no plain scalar, whatever follows it. -/
def isIndicator (c : Char) : Bool :=
  ['-', '?', ':', ',', '[', ']', '\x7b', '\x7d', '#', '&', '*', '!', '|', '>', '\'', '"', '%', '@',
    '\x60'].contains c

/-- A plain scalar starts at a character: one that is no indicator, or a dash before anything but
white space, or outside brackets a question mark or colon before anything but a gap. -/
def startsPlain (inFlow : Bool) (c : Char) (rest : List Char) : Bool :=
  (!isGap c && !isIndicator c) || (c == '-' && !rest.head?.any isWhite) ||
    (!inFlow && (c == '?' || c == ':') && !atGap rest)

/-- The token that starts with a given character. -/
def tokenAt? (l : Lexer) (c : Char) (rest : List Char) : Option Lexer :=
  let marks := l.inFlow || atGap rest
  if c == '[' then l.openFlow? .flowSequence
  else if c == '\x7b' then l.openFlow? .flowMapping
  else if c == ']' then l.closeFlow? .flowSequenceEnd
  else if c == '\x7d' then l.closeFlow? .flowMappingEnd
  else if c == ',' then l.comma?
  else if c == '-' && atGap rest then l.item?
  else if c == '?' && marks then l.key?
  else if c == ':' && marks then l.value?
  else if c == '*' then l.anchor? .reference
  else if c == '&' then l.anchor? .anchor
  else if c == '!' then l.tag?
  else if c == '|' && !l.inFlow then l.blockScalar? false
  else if c == '>' && !l.inFlow then l.blockScalar? true
  else if c == '\'' then l.quoted? false
  else if c == '"' then l.quoted? true
  else if startsPlain l.inFlow c rest then l.plain?
  else none

/-- Reads the next token, with the ends of collections before it. The flag says that the text goes
on. -/
def next? (l : Lexer) : Option (Lexer × Bool) :=
  let before := l.cursor.place
  let (keyAllowed, cursor) := skipGap l.inFlow l.keyAllowed l.cursor (l.cursor.rest.length + 1)
  let l := endBlocks cursor.column before { l with keyAllowed, cursor }
  match cursor.rest with
  | [] => l.finish?.map (·, false)
  | c :: rest =>
    if cursor.column == 0 && c == '%' then l.directive?.map (·, true)
    else if cursor.column == 0 && atDocumentMark (c :: rest) then
      (l.documentMark? (if c == '-' then .documentStart else .documentEnd)).map (·, true)
    else
      (l.tokenAt? c rest).map fun l =>
        (if l.tokens.back?.any (·.kind == .item) then l else l.skipTrailingComment, true)

def run : (budget : Nat) → Lexer → List Token
  | 0, l => l.tokens.toList
  | budget + 1, l =>
    match l.next? with
    | some (l, true) => run budget l
    | some (l, false) => l.tokens.toList
    | none => (l.tokens.pop.pop).toList

end Lexer

/-- The tokens of a text that a reader of nodes can take. A text with a character that YAML does not
allow has none. A U+FEFF at the start is dropped. -/
def Token.ofText (text : String) : List Token :=
  let cs := match text.toList with
    | c :: rest => if c.toNat = 0xFEFF then rest else c :: rest
    | [] => []
  if cs.all isAllowed then
    let cs := uniformBreaks cs
    (Lexer.start cs).run (cs.length + 1)
  else []

end Polytype.Yaml
