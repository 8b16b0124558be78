import Polytype.Text.Numeral
import Polytype.Text.Quoted

/-!
# Command-line arguments

The first argument that is neither a flag nor a flag's value names a command. Flags may stand
anywhere before `--`: `--name value`, `--name=value`, `-n value`, `-nvalue`, `-n=value`, and
switches without a value, of which several short ones may share a dash.
-/

namespace Polytype.Command

/-! ## Commands and flags -/

/-- What the program is asked to do. -/
inductive Verb where
  | check
  | env
  | parseType
  /-- Explain the program; also what is done without a command. -/
  | help
deriving DecidableEq, Repr

inductive Flag where
  | debug
  | env
  | annotate
  | dump
  | jobs
  | help
deriving DecidableEq, Repr

namespace Flag

def name : Flag → String
  | debug => "debug"
  | env => "env"
  | annotate => "annotate"
  | dump => "dump"
  | jobs => "jobs"
  | help => "help"

def letter? : Flag → Option Char
  | debug => some 'd'
  | annotate => some 'a'
  | jobs => some 'j'
  | help => some 'h'
  | env | dump => none

/-- A flag that needs no value. -/
def isSwitch : Flag → Bool
  | debug | annotate | dump | help => true
  | env | jobs => false

/-- The flags that every command has. -/
def shared : List Flag := [debug, env]

end Flag

namespace Verb

def program : String := "hmcheck"

def path : Verb → String
  | check => program ++ " check"
  | env => program ++ " env"
  | parseType => program ++ " parse-type"
  | help => program

def ofName? (name : String) : Option Verb :=
  List.lookup name
    [("check", check), ("env", env), ("parse-type", parseType), ("help", help),
      ("completion", help)]

/-- The names that are suggested in place of an unknown one. -/
def suggested : List String := ["check", "env", "parse-type", "completion"]

def flags : Verb → List Flag
  | check => [.annotate, .dump, .jobs, .help] ++ Flag.shared
  | env | parseType | help => .help :: Flag.shared

end Verb

/-! ## Errors -/

/-- Why a value does not fit a flag. -/
inductive ValueFault where
  | malformed
  | outOfRange
deriving DecidableEq, Repr

/-- Why arguments are refused. -/
inductive UsageError where
  | badFlag (arg : String)
  | unknownFlag (name : String)
  /-- A letter that is no flag, and the letters from it on. -/
  | unknownLetter (letter : Char) (letters : String)
  | missingValue (name : String)
  | missingLetterValue (letter : Char)
  | invalidValue (flag : Flag) (value : String) (fault : ValueFault)
  | unknownCommand (name : String) (path : String) (suggestions : List String)
  | tooFewArgs (least found : Nat)
  | wrongArgs (wanted found : Nat)
deriving DecidableEq

/-- A character between single quotes. -/
def quotedLetter (c : Char) : String :=
  let inner := if c = '\'' then ['\\', '\''] else if c = '"' then ['"'] else Text.quotedChar c
  String.ofList ('\'' :: inner ++ ['\''])

def ValueFault.text : ValueFault → String
  | malformed => "invalid syntax"
  | outOfRange => "value out of range"

def Flag.title (f : Flag) : String :=
  match f.letter? with
  | some c => "-" ++ String.singleton c ++ ", --" ++ f.name
  | none => "--" ++ f.name

def UsageError.message : UsageError → String
  | badFlag arg => "bad flag syntax: " ++ arg
  | unknownFlag name => "unknown flag: --" ++ name
  | unknownLetter letter letters =>
    "unknown shorthand flag: " ++ quotedLetter letter ++ " in -" ++ letters
  | missingValue name => "flag needs an argument: --" ++ name
  | missingLetterValue letter =>
    "flag needs an argument: " ++ quotedLetter letter ++ " in -" ++ String.singleton letter
  | invalidValue flag value fault =>
    let reader := if flag.isSwitch then "strconv.ParseBool" else "strconv.ParseInt"
    "invalid argument " ++ Text.quoted value ++ " for " ++ Text.quoted flag.title ++ " flag: " ++
      reader ++ ": parsing " ++ Text.quoted value ++ ": " ++ fault.text
  | unknownCommand name path suggestions =>
    "unknown command " ++ Text.quoted name ++ " for " ++ Text.quoted path ++
      (if suggestions.isEmpty then ""
        else "\n\nDid you mean this?\n" ++ String.join (suggestions.map fun s => "\t" ++ s ++ "\n"))
  | tooFewArgs least found =>
    "requires at least " ++ Text.natural least ++ " arg(s), only received " ++ Text.natural found
  | wrongArgs wanted found =>
    "accepts " ++ Text.natural wanted ++ " arg(s), received " ++ Text.natural found

/-! ## Values of flags -/

/-- What the flags ask for. -/
structure Options where
  debug : Bool
  /-- The configuration of the environment; none if empty. -/
  envFile : String
  annotate : Bool
  dump : Bool
  help : Bool
deriving DecidableEq, Repr

def Options.none : Options := ⟨false, "", false, false, false⟩

/-- A truth value as it is written for a switch. -/
def switch? (value : String) : Option Bool :=
  if ["1", "t", "T", "TRUE", "true", "True"].contains value then some true
  else if ["0", "f", "F", "FALSE", "false", "False"].contains value then some false
  else none

/-- Underscores in an integer literal stand between digits, or between its base and a digit. -/
def underscoresFit (cs : List Char) : Bool :=
  let cs := match cs with
    | '-' :: rest => rest
    | '+' :: rest => rest
    | rest => rest
  match cs with
  | '0' :: c :: rest =>
    if ['x', 'X'].contains c then Text.separates (fun d => (Text.digitValue? 16 d).isSome) true rest
    else if ['o', 'O', 'b', 'B'].contains c then Text.separates Char.isDigit true rest
    else Text.separates Char.isDigit true (c :: rest)
  | cs => Text.separates Char.isDigit false cs

/-- The fault of a text that is no 64-bit integer. -/
def integerFault? (value : String) : Option ValueFault :=
  let cs := value.toList
  match Text.signed? Text.basedDigits? (Text.withoutUnderscores cs) with
  | some n =>
    if !underscoresFit cs then some .malformed
    else if Text.isInt64 n then Option.none else some .outOfRange
  | Option.none => some .malformed

def Options.set (o : Options) (flag : Flag) (value : String) : Except UsageError Options :=
  let onSwitch (update : Bool → Options) : Except UsageError Options :=
    match switch? value with
    | some b => .ok (update b)
    | Option.none => .error (.invalidValue flag value .malformed)
  match flag with
  | .debug => onSwitch fun b => { o with debug := b }
  | .annotate => onSwitch fun b => { o with annotate := b }
  | .dump => onSwitch fun b => { o with dump := b }
  | .help => onSwitch fun b => { o with help := b }
  | .env => .ok { o with envFile := value }
  | .jobs =>
    -- the number is checked and has no effect
    match integerFault? value with
    | some fault => .error (.invalidValue flag value fault)
    | Option.none => .ok o

/-! ## Reading flags -/

/-- What was read from the arguments so far. -/
structure Parsed where
  options : Options
  /-- The arguments that are no flags, the latest first. -/
  operands : List String
  /-- A flag whose value is the next argument, with the error if there is none. -/
  waiting : Option (Flag × UsageError)
  /-- All further arguments are no flags. -/
  ended : Bool

def Parsed.long (flags : List Flag) (p : Parsed) (arg : String) : Except UsageError Parsed :=
  let body := arg.toList.drop 2
  match body with
  | '-' :: _ => .error (.badFlag arg)
  | '=' :: _ => .error (.badFlag arg)
  | _ =>
    let name := String.ofList (body.takeWhile (· ≠ '='))
    match flags.find? (·.name = name) with
    | none => .error (.unknownFlag name)
    | some flag =>
      match body.dropWhile (· ≠ '=') with
      | _ :: value => (p.options.set flag (String.ofList value)).map ({ p with options := · })
      | [] =>
        if flag.isSwitch then (p.options.set flag "true").map ({ p with options := · })
        else .ok { p with waiting := some (flag, .missingValue name) }

/-- The first byte of a character's encoding, as a character. -/
def firstByte (c : Char) : Char :=
  Char.ofNat ((String.singleton c).toUTF8.toList.headD 0).toNat

/-- Flags as letters after one dash. -/
def Parsed.letters (flags : List Flag) (p : Parsed) : List Char → Except UsageError Parsed
  | [] => .ok p
  | c :: rest =>
    match flags.find? (·.letter? = some c) with
    | none => .error (.unknownLetter (firstByte c) (String.ofList (c :: rest)))
    | some flag =>
      match rest with
      | '=' :: d :: value =>
        (p.options.set flag (String.ofList (d :: value))).map ({ p with options := · })
      | _ =>
        if flag.isSwitch then
          match p.options.set flag "true" with
          | .ok options => letters flags { p with options } rest
          | .error e => .error e
        else if rest.isEmpty then
          .ok { p with waiting := some (flag, .missingLetterValue c) }
        else (p.options.set flag (String.ofList rest)).map ({ p with options := · })

def Parsed.add (flags : List Flag) (p : Parsed) (arg : String) : Except UsageError Parsed :=
  match p.waiting with
  | some (flag, _) =>
    (p.options.set flag arg).map fun options => { p with options, waiting := none }
  | none =>
    if p.ended then .ok { p with operands := arg :: p.operands }
    else if arg = "--" then .ok { p with ended := true }
    else match arg.toList with
      | '-' :: '-' :: _ => p.long flags arg
      | '-' :: c :: rest => p.letters flags (c :: rest)
      | _ => .ok { p with operands := arg :: p.operands }

/-- Reads the flags among some arguments; the others are kept in order. -/
def parse (flags : List Flag) (args : List String) : Except UsageError (Options × List String) := do
  let p ← args.foldlM (Parsed.add flags) ⟨.none, [], none, false⟩
  match p.waiting with
  | some (_, e) => .error e
  | none => return (p.options, p.operands.reverse)

/-! ## Finding the command -/

/-- An argument that takes the next one as its value, as far as the flags of the whole program tell:
of an unknown flag it is assumed. -/
def takesNext (arg : String) : Bool :=
  if arg.toList.contains '=' then false
  else match arg.toList with
    | '-' :: '-' :: name =>
      !Flag.shared.any fun f => f.isSwitch && f.name = String.ofList name
    | ['-', c] => c.toNat < 0x80 && !Flag.shared.any fun f => f.isSwitch && f.letter? = some c
    | _ => false

def isDashed (arg : String) : Bool := arg.toList.head? = some '-'

/-- The arguments that are neither flags nor values of flags. A flag that takes a value is the last
one to be looked at when at most one argument follows it. -/
def operands : List String → List String
  | [] => []
  | "--" :: _ => []
  | arg :: rest =>
    if takesNext arg then
      match rest with
      | _ :: next :: rest => operands (next :: rest)
      | _ => []
    else if arg ≠ "" && !isDashed arg then arg :: operands rest
    else operands rest

/-- The arguments without the first one that names the command. -/
def dropName (name : String) : List String → List String
  | [] => []
  | arg :: rest =>
    if arg = "--" then arg :: rest
    else if takesNext arg then
      match rest with
      | value :: rest => arg :: value :: dropName name rest
      | [] => [arg]
    else if arg = name then rest
    else arg :: dropName name rest

/-- The next row of distances: `before` is the row without the character `c` of the first text, and
`left` the distance to the left of the next one. -/
def distanceRow (c : Char) (left : Nat) : (before : List Nat) → List Char → List Nat
  | diagonal :: above :: before, d :: cs =>
    let here := if c = d then diagonal else min (min left above) diagonal + 1
    here :: distanceRow c here (above :: before) cs
  | _, _ => []

/-- The distances of a text to every front part of another, after those characters of the first text
that the row already counts. -/
def distanceRows (t : List Char) : (row : List Nat) → List Char → List Nat
  | row, [] => row
  | row, c :: cs =>
    let first := row.headD 0 + 1
    distanceRows t (first :: distanceRow c first row t) cs

def distance (s t : List Char) : Nat :=
  ((distanceRows t (List.range (t.length + 1)) s).getLast?).getD 0

/-- Commands with a name like the given one: within two edits, or starting with it. -/
def suggestions (name : String) : List String :=
  let name := name.toList.map Char.toLower
  Verb.suggested.filter fun s =>
    distance name s.toList ≤ 2 || name.isPrefixOf s.toList

/-- The command that is asked for, and its arguments. -/
def find (args : List String) : Except UsageError (Verb × List String) :=
  match operands args with
  | [] => .ok (.help, args)
  | name :: _ =>
    match Verb.ofName? name with
    | some verb => .ok (verb, dropName name args)
    | none => .error (.unknownCommand name Verb.program (suggestions name))

/-! ## Requests -/

structure Request where
  verb : Verb
  options : Options
  args : List String
deriving DecidableEq

def Verb.accepts (verb : Verb) (args : List String) : Except UsageError Unit :=
  match verb, args with
  | .check, [] => .error (.tooFewArgs 1 0)
  | .env, name :: _ => .error (.unknownCommand name verb.path [])
  | .parseType, args => if args.length = 1 then .ok () else .error (.wrongArgs 1 args.length)
  | _, _ => .ok ()

def Request.ofArgs (args : List String) : Except UsageError Request := do
  let (verb, args) ← find args
  let (options, args) ← parse verb.flags args
  if verb = .help || options.help then return ⟨.help, options, args⟩
  verb.accepts args
  return ⟨verb, options, args⟩

end Polytype.Command
