import Polytype.Text.Quoted
import Polytype.Ty.Scheme
import Polytype.Ty.Token

/-!
# Reading type annotations

    Type   ::= name | name '<' Type (',' Type)* '>'
    Scheme ::= ['<' name (',' name)* '>'] Type        with distinct names

`Ty.parse` and `Scheme.parse` read a source by these rules. The reader looks at one token at a time
and keeps the constructors whose arguments are still open; the first token that fits no rule is the
error.
-/

namespace Polytype

/-- What a reader found where it expected something else: a token's text, or the end. -/
inductive Found where
  | token (text : String)
  | finish
deriving DecidableEq

inductive ParseCause where
  | expectedName (found : Found)
  | expectedClose (found : Found)
  | unexpected (found : Found)
  | duplicateParam (name : String)
  | lexical (fault : LexicalFault)
deriving DecidableEq

/-- A syntax error and the column it is reported at. -/
structure ParseError where
  column : Nat
  cause : ParseCause
deriving DecidableEq

/-! ## Wording -/

def Found.text : Found → String
  | token text => Text.quoted text
  | finish => "end of input"

def LexicalFault.text : LexicalFault → String
  | nul => "invalid character NUL"
  | encoding => "invalid UTF-8 encoding"

def ParseCause.text : ParseCause → String
  | expectedName found => "expected type name, found " ++ found.text
  | expectedClose found => "expected \">\", found " ++ found.text
  | unexpected found => "unexpected " ++ found.text
  | duplicateParam name => "duplicate generic parameter " ++ name
  | lexical fault => fault.text

def ParseError.message (e : ParseError) : String :=
  "invalid type at column " ++ Text.natural e.column ++ ": " ++ e.cause.text

/-! ## Types -/

/-- A constructor whose arguments are being read, with those read so far, the latest first. -/
structure Frame where
  name : String
  args : List Ty

/-- What the reader has in hand between two tokens. -/
inductive Phase where
  | want
  /-- A name was read, and its arguments may follow. -/
  | named (name : String)
  | closed (t : Ty)

/-- The reader's state: what it has in hand, and the constructors still open, the innermost
first. -/
structure Reader where
  phase : Phase
  frames : List Frame

namespace Reader

def start : Reader := ⟨.want, []⟩

/-- A finished argument goes to the innermost open constructor, which a comma keeps open and a
bracket closes. -/
def settle (t : Ty) : List Frame → Char → Option Reader
  | [], _ => none
  | frame :: outer, c =>
    if c = ',' then some ⟨.want, ⟨frame.name, t :: frame.args⟩ :: outer⟩
    else if c = '>' then some ⟨.closed (.con frame.name (t :: frame.args).reverse), outer⟩
    else none

/-- The state after a token that may follow. -/
def step (r : Reader) (t : Token) : Option Reader :=
  match r.phase, t with
  | .want, .ident name => some ⟨.named name, r.frames⟩
  | .named name, .mark c =>
    -- any other mark ends the type that is a name alone
    if c = '<' then some ⟨.want, ⟨name, []⟩ :: r.frames⟩ else settle (.con name []) r.frames c
  | .closed t, .mark c => settle t r.frames c
  | _, _ => none

/-- The type that was read, if it may end here. -/
def result? (r : Reader) : Option Ty :=
  match r.phase, r.frames with
  | .named name, [] => some (.con name [])
  | .closed t, [] => some t
  | _, _ => none

/-- The cause that is reported when nothing that may follow does. -/
def complaint (r : Reader) (found : Found) : ParseCause :=
  match r.phase, r.frames with
  | .want, _ => .expectedName found
  | _, [] => .unexpected found
  | _, _ :: _ => .expectedClose found

/-- Reads a type up to the end of the source. -/
def run : Reader → Tokens → Except ParseError Ty
  | r, .token t column rest =>
    match r.step t with
    | some r => run r rest
    | none => .error ⟨column, r.complaint (.token t.text)⟩
  | r, .finish column =>
    match r.result? with
    | some t => .ok t
    | none => .error ⟨column, r.complaint .finish⟩
  | _, .fault f column => .error ⟨column, .lexical f⟩

end Reader

def Ty.parse (source : Text.Source) : Except ParseError Ty :=
  Reader.start.run (Tokens.ofSource source)

/-! ## Generic types -/

namespace Scheme

/-- Reads the parameters after an opening bracket and then the type. A repeated parameter is
reported at the token after it, once that token is read. -/
def parseParams : (before : List String) → Tokens → Except ParseError Scheme
  | before, .token (.ident name) _ (.token t column rest) =>
    if before.contains name then .error ⟨column, .duplicateParam name⟩
    else if t = .mark ',' then parseParams (before ++ [name]) rest
    else if t = .mark '>' then (Reader.start.run rest).map (Scheme.mk (before ++ [name]))
    else .error ⟨column, .expectedClose (.token t.text)⟩
  | before, .token (.ident name) _ (.finish column) =>
    if before.contains name then .error ⟨column, .duplicateParam name⟩
    else .error ⟨column, .expectedClose .finish⟩
  | _, .token (.ident _) _ (.fault f column) => .error ⟨column, .lexical f⟩
  | _, .token t column _ => .error ⟨column, .expectedName (.token t.text)⟩
  | _, .finish column => .error ⟨column, .expectedName .finish⟩
  | _, .fault f column => .error ⟨column, .lexical f⟩

/-- Reads a type with an optional list of parameters before it. -/
def parse (source : Text.Source) : Except ParseError Scheme :=
  match Tokens.ofSource source with
  | .token (.mark '<') _ rest => parseParams [] rest
  | tokens => (Reader.start.run tokens).map mono

end Scheme

end Polytype
