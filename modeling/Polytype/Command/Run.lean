import Polytype.Command.Args
import Polytype.Config
import Polytype.Document.Decode
import Polytype.Expr.Names
import Polytype.Expr.Text
import Polytype.Infer.Context
import Polytype.Text.Classes
import Polytype.Yaml.Tag

/-!
# Running commands

A command reads files by name and produces text, log records and possibly an error. Log records of
the debugging level are written only on demand.
-/

namespace Polytype.Command

/-! ## Log records -/

/-- How much a record matters. -/
inductive Level where
  | debug
  | warning
deriving DecidableEq, Repr

structure Record where
  level : Level
  message : String
  attributes : List (String × String)
deriving DecidableEq

/-- A character of a value that can stand without quotes. -/
def isSafe (c : Char) : Bool := Text.isPrintable c && c ≠ ' ' && c ≠ '"' && c ≠ '='

/-- A value without terminal escape sequences, each of which starts with an escape character and
ends with a letter; `inside` says that one is open. -/
def withoutEscapes : (inside : Bool) → List Char → List Char
  | _, [] => []
  | inside, c :: rest =>
    if c = '\x1b' then withoutEscapes true rest
    else if inside then withoutEscapes (!Text.isLetter c) rest
    else c :: withoutEscapes false rest

/-- A value of an attribute, in quotes if it needs them. -/
def valueText (value : String) : String :=
  let cs := withoutEscapes false value.toList
  if !cs.isEmpty && cs.all isSafe then String.ofList cs else String.ofList (Text.quotedChars cs)

def Record.line (r : Record) : String :=
  let level := match r.level with
    | .debug => "DBG"
    | .warning => "WRN"
  level ++ " " ++ r.message ++
    String.join (r.attributes.map fun (key, value) => " " ++ key ++ "=" ++ valueText value) ++ "\n"

/-! ## Results -/

/-- What a command has produced. -/
structure Report where
  output : String
  log : List Record
  error : Option String

def Report.failed (message : String) : Report := ⟨"", [], some message⟩

/-- The lines of the log that are shown. -/
def Report.logText (r : Report) (debug : Bool) : String :=
  String.join ((r.log.filter fun r => debug || r.level ≠ .debug).map Record.line)

/-- The contents of files by name. -/
abbrev Files := String → Option String

def missingFile (path : String) : String := "open " ++ path ++ ": no such file or directory"

/-! ## Commands -/

/-- The environment that the options ask for, with what is logged about it. -/
def environment (files : Files) (path : String) : Except String (Env × List Record) := do
  if path = "" then return (.prelude, [])
  else match files path with
    | none => throw ("parsing " ++ path ++ ": " ++ missingFile path)
    | some text =>
      let config ← (Config.ofText text).mapError fun e => "parsing " ++ path ++ ": " ++ e.message
      let env ← config.env.mapError fun e => path ++ ": " ++ e.message
      return (env, [⟨.debug, "loaded environment", [("path", path),
        ("bindings", Text.natural env.size),
        ("prelude", if config.usePrelude then "true" else "false")]⟩])

/-- The result of checking one file: the lines to print, the log, and whether it failed. -/
structure Checked where
  output : String
  log : List Record
  failed : Bool

/-- What is said of groups that could be split, one record for each. -/
def splitWarnings (e : Expr) : List (String × List (String × String)) :=
  match e.groups with
  | .error _ => []
  | .ok groups => groups.filterMap fun bindings =>
    match Binding.components bindings with
    | .error _ => none
    | .ok components =>
      if 1 < components.length then
        some ("function group can be split", [("functions", Text.natural bindings.length),
          ("components", Text.natural components.length)])
      else none

/-- The text of an expression from a document, which has no faults. -/
def exprText (e : Expr) : String := (e.print.toOption).getD ""

def checkExpr (env : Env) (annotate : Bool) (path : String) (e : Expr) : Checked :=
  let file := ("file", path)
  let before : List Record := ⟨.debug, "checking expression", [file, ("expr", exprText e)]⟩ ::
    (splitWarnings e).map fun (message, attributes) => ⟨.warning, message, file :: attributes⟩
  let records (log : List Event) : List Record :=
    before ++ log.map fun event => ⟨.debug, event.message, file :: event.attributes⟩
  let failure (trouble : Trouble) (c : Context) : String :=
    let message := match trouble with
      | .error e => e.message
      | .fault f => f.message?.getD ""
    let place := if c.invalid.isAbsent then "" else "  at " ++ exprText c.invalid ++ "\n"
    path ++ ": " ++ message ++ "\n" ++ place
  if annotate then
    let (outcome, c) := Context.new.annotateGeneric e (some env)
    match outcome.result with
    | .ok (typed, g) =>
      ⟨path ++ ": " ++ g.text ++ "\n  " ++ exprText typed ++ "\n", records outcome.log, false⟩
    | .error trouble => ⟨failure trouble c, records outcome.log, true⟩
  else
    let (outcome, c) := Context.new.inferGeneric e (some env)
    match outcome.result with
    | .ok g => ⟨path ++ ": " ++ g.text ++ "\n", records outcome.log, false⟩
    | .error trouble => ⟨failure trouble c, records outcome.log, true⟩

def checkFile (files : Files) (env : Env) (annotate : Bool) (path : String) : Checked :=
  match files path with
  | none => ⟨path ++ ": " ++ missingFile path ++ "\n", [], true⟩
  | some text =>
    match Expr.ofDocument text with
    | .error e => ⟨path ++ ": " ++ path ++ ": " ++ e.message ++ "\n", [], true⟩
    | .ok e => checkExpr env annotate path e

def check (files : Files) (options : Options) (paths : List String) : Report :=
  match environment files options.envFile with
  | .error message => .failed message
  | .ok (env, log) =>
    let results := paths.map (checkFile files env options.annotate)
    let failed := results.countP (·.failed)
    let error :=
      if failed = 0 then none
      else some (Text.natural failed ++ " of " ++ Text.natural paths.length ++ " files failed")
    ⟨String.join (results.map (·.output)), log ++ results.flatMap (·.log), error⟩

def listEnv (files : Files) (options : Options) : Report :=
  match environment files options.envFile with
  | .error message => .failed message
  | .ok (env, log) =>
    let line (name : String) (g : Option Scheme) := name ++ ": " ++ Scheme.optionText g ++ "\n"
    ⟨String.join (env.entries.map fun (name, g) => line name g), log, none⟩

def parseType (source : String) : Report :=
  match Scheme.parse (Text.Source.ofString source) with
  | .ok g => ⟨g.text ++ "\n", [], none⟩
  | .error e => .failed e.message

def Request.run (files : Files) (r : Request) : Report :=
  match r.verb with
  | .check => check files r.options r.args
  | .env => listEnv files r.options
  | .parseType => parseType (r.args.headD "")
  | .help => ⟨"", [], none⟩

def Request.files (r : Request) : List String :=
  match r.verb with
  | .check => r.options.envFile :: r.args
  | .env => [r.options.envFile]
  | .parseType | .help => []

/-- Runs the program: what it prints, the log as text, and its error. -/
def run (files : Files) (args : List String) : String × String × Option String :=
  match Request.ofArgs args with
  | .error e => ("", "", some e.message)
  | .ok request =>
    let report := request.run files
    (report.output, report.logText request.options.debug, report.error)

end Polytype.Command
