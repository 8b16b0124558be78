import Polytype.Text.Numeral
import Polytype.Text.Quoted
import Polytype.Ty.Parser
import Polytype.Yaml.Cursor

/-!
# What can be wrong with a document

The forms that an expression takes in a document, the causes for which a document is refused, and
the wording of each.
-/

namespace Polytype.Document

/-! ## Forms -/

/-- The forms of an expression that is written as a mapping. -/
inductive Form where
  | array
  | block
  | call
  | fn
  | group
  | int
  | letIn
  | seq
  | str
  | var
deriving DecidableEq, Repr

namespace Form

/-- All forms, in the order of their names. -/
def all : List Form := [array, block, call, fn, group, int, letIn, seq, str, var]

/-- The name of a form, which is also the field that shows it. -/
def name : Form → String
  | array => "array"
  | block => "block"
  | call => "call"
  | fn => "fn"
  | group => "group"
  | int => "int"
  | letIn => "let"
  | seq => "seq"
  | str => "str"
  | var => "var"

def ofName? (name : String) : Option Form := all.find? (·.name = name)

/-- The other fields that a form may have. -/
def extras : Form → List String
  | array => ["of"]
  | call => ["args"]
  | fn => ["returns", "body"]
  | group => ["in"]
  | letIn => ["type", "value", "in"]
  | var => ["types"]
  | block | int | seq | str => []

end Form

/-- The fields of a function in a group. -/
def bindingFields : List String := ["name", "type", "fn", "returns", "body"]

/-! ## Causes -/

inductive Expected where
  | expression
  | expressions
  | integer
  | string
  | variableName
  | type
  | types
  | genericType
  | parameters
  | parameter
  | functions
  | function
  | functionName
  | fieldName
deriving DecidableEq, Repr

inductive Cause where
  /-- A node is of the wrong kind, or an empty text. -/
  | expected (what : Expected)
  | noForm
  | ambiguous (first second : Form)
  | duplicateField (name : String)
  | unexpectedField (name : String) (form : Form)
  | unexpectedBindingField (name : String)
  | missingField (name : String) (form : Form)
  | missingBindingField (name : String)
  /-- A scalar that is neither a literal nor a name. -/
  | unexpectedScalar (tag value : String)
  | invalidInteger (value : String)
  | missingParamName
  | invalidParam (name : String) (error : ParseError)
  | invalidType (error : ParseError)
  | seqLength (found : Nat)
deriving DecidableEq

structure Error where
  mark : Yaml.Mark
  cause : Cause
deriving DecidableEq

/-! ## Wording -/

def Expected.text : Expected → String
  | expression => "expression"
  | expressions => "list of expressions"
  | integer => "integer"
  | string => "string"
  | variableName => "variable name"
  | type => "type"
  | types => "list of types"
  | genericType => "generic type"
  | parameters => "parameter list"
  | parameter => "parameter"
  | functions => "function list"
  | function => "function binding"
  | functionName => "function name"
  | fieldName => "field name"

/-- A tag without the marks in front of a standard one. -/
def tagName (tag : String) : String :=
  match tag.toList with
  | '!' :: '!' :: rest => String.ofList rest
  | _ => tag

def Cause.text : Cause → String
  | expected what => "expected " ++ what.text
  | noForm => "expected one of " ++ String.intercalate ", " (Form.all.map Form.name)
  | ambiguous first second => "ambiguous expression: both " ++ first.name ++ " and " ++ second.name
  | duplicateField name => "duplicate field " ++ name
  | unexpectedField name form =>
    "unexpected field " ++ name ++ " in " ++ form.name ++ " expression"
  | unexpectedBindingField name => "unexpected field " ++ name ++ " in function binding"
  | missingField name form => form.name ++ " expression requires " ++ name
  | missingBindingField name => "function binding requires " ++ name
  | unexpectedScalar tag value =>
    "unexpected " ++ tagName tag ++ " scalar " ++ Text.quoted value
  | invalidInteger value => "invalid integer " ++ Text.quoted value
  | missingParamName => "missing parameter name"
  | invalidParam name error => "parameter " ++ name ++ ": " ++ error.message
  | invalidType error => error.message
  | seqLength found => "seq expression requires 2 expressions, found " ++ Text.natural found

def Error.message (e : Error) : String :=
  "line " ++ Text.natural e.mark.line ++ ", column " ++ Text.natural e.mark.column ++ ": " ++
    e.cause.text

end Polytype.Document
