import Polytype.Env
import Polytype.Toml.Table
import Polytype.Ty.Parser

/-!
# Configurations

A configuration is a TOML text that describes an environment: whether the standard one is included,
and bindings of names to generic types. The names of its two keys are read in any letter case. All
other keys are refused, and a value of `bindings` that is no table counts as none.
-/

namespace Polytype

/-- A configuration as it is written. -/
structure Config where
  /-- Whether the standard environment is included, if that is said. -/
  prelude? : Option Bool
  /-- Names and the generic types given for them. -/
  bindings : List (String × String)
deriving DecidableEq, Inhabited

inductive ConfigError where
  /-- The text is no TOML, or a value is of the wrong kind. -/
  | syntactic
  | unknownKeys (keys : List Toml.Path)
  | invalidBinding (name : String) (error : ParseError)
deriving DecidableEq

/-- The message of an error; faults of TOML itself are not described further. -/
def ConfigError.message : ConfigError → String
  | syntactic => "invalid configuration"
  | unknownKeys keys => "unknown keys: " ++ String.intercalate ", " (keys.map Toml.Path.text)
  | invalidBinding name error => "binding " ++ name ++ ": " ++ error.message

namespace Config

def empty : Config := ⟨none, []⟩

/-! ## Reading -/

/-- A character with its letter case forgotten. The long s and the sign for kelvin count as the
letters that they stand for. -/
def foldCase (c : Char) : Char :=
  if c.toNat = 0x17F then 's' else if c.toNat = 0x212A then 'k' else c.toLower

def isNamed (name key : String) : Bool := key.toList.map foldCase = name.toList

def bindings? (t : Toml.Table) : Option (List (String × String)) :=
  t.mapM fun
    | (name, .text s) => some (name, s)
    | _ => none

/-- Takes one key of the top table into account. -/
def read? (c : Config) : String × Toml.Value → Option Config
  | (key, v) =>
    if isNamed "prelude" key then
      match v with
      | .flag b => some { c with prelude? := some b }
      | _ => none
    else if isNamed "bindings" key then
      match v with
      | .table t => (bindings? t).map fun bs => { c with bindings := c.bindings ++ bs }
      | _ => some c
    else some c

/-- A key that has a meaning in a top table: one of the known names, or a binding. -/
def isKnown (root : Toml.Table) : Toml.Path → Bool
  | [key] => isNamed "prelude" key || isNamed "bindings" key
  | [key, _] =>
    isNamed "bindings" key &&
      match root.get? key with
      | some (.table _) => true
      | _ => false
  | _ => false

def ofText (text : String) : Except ConfigError Config :=
  match Toml.Document.ofText? text with
  | none => .error .syntactic
  | some d =>
    match d.root.foldlM read? empty with
    | none => .error .syntactic
    | some c =>
      match d.keys.filter fun key => !isKnown d.root key with
      | [] => .ok c
      | keys => .error (.unknownKeys keys)

/-! ## The environment -/

/-- Whether the standard environment is included: yes, unless it is said otherwise. -/
def usePrelude (c : Config) : Bool := c.prelude?.getD true

def extend (env : Env) : List (String × String) → Except ConfigError Env
  | [] => .ok env
  | (name, source) :: rest =>
    match Scheme.parse (Text.Source.ofString source) with
    | .ok g => extend (env.extend name (some g)) rest
    | .error e => .error (.invalidBinding name e)

/-- The environment that a configuration describes. Bindings are read in the order of their
names. -/
def env (c : Config) : Except ConfigError Env :=
  let start := if c.usePrelude then Env.prelude else .empty
  extend start (c.bindings.mergeSort fun a b => a.1 ≤ b.1)

end Config

end Polytype
