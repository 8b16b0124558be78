import Polytype.Document.Error
import Polytype.Expr.Basic
import Polytype.Text.Classes
import Polytype.Yaml.Reader

/-!
# Expressions from documents

An expression is a scalar, which is a literal or a name, or a mapping that shows its form by one of
its fields. `Expr.ofNode` reads a tree of nodes. Its rules are stated for one level, given a reader
of the expressions below it; reading a tree applies them once for each level of its depth.

An alias stands for its node where an expression may stand. Elsewhere it is no scalar, no list and
no mapping.
-/

namespace Polytype.Document

open Polytype.Yaml (Node Entry Mark Scalars)

abbrev Result := Except Error

def refuse {α : Type} (n : Node) (cause : Cause) : Result α := .error ⟨n.mark, cause⟩

/-! ## Fields -/

/-- A field of a mapping: its name, the place of the name, and its value. -/
structure Field where
  name : String
  mark : Mark
  value : Node

/-- The fields of a mapping after those before. Names are scalars and all different. -/
def fieldsAfter (before : List Field) : List Entry → Result (List Field)
  | [] => .ok before.reverse
  | .mk (.scalar mark _ _ name) value :: rest =>
    if before.any (·.name = name) then .error ⟨mark, .duplicateField name⟩
    else fieldsAfter (⟨name, mark, value⟩ :: before) rest
  | .mk key _ :: _ => refuse key (.expected .fieldName)

def fields (entries : List Entry) : Result (List Field) := fieldsAfter [] entries

def value? (fs : List Field) (name : String) : Option Node :=
  (fs.find? (·.name = name)).map (·.value)

/-- The one field that shows the form, with the form. -/
def form (whole : Node) (fs : List Field) : Result (Form × Node) :=
  match fs.filterMap fun f => (Form.ofName? f.name).map (·, f.value) with
  | [] => refuse whole .noForm
  | [found] => .ok found
  | (first, _) :: (second, _) :: _ => refuse whole (.ambiguous first second)

/-- All fields are among those allowed. -/
def onlyFields (allowed : List String) (cause : String → Cause) (fs : List Field) : Result Unit :=
  match fs.find? fun f => !allowed.contains f.name with
  | some f => .error ⟨f.mark, cause f.name⟩
  | none => .ok ()

/-- Reads a field that may be left out. -/
def optional {α : Type} (fs : List Field) (name : String) (absent : α) (read : Node → Result α) :
    Result α :=
  match value? fs name with
  | some n => read n
  | none => .ok absent

/-! ## Parts -/

/-- A text that is not empty. -/
def nonEmpty (what : Expected) : Node → Result String
  | .scalar mark _ _ value =>
    if value = "" then .error ⟨mark, .expected what⟩ else .ok value
  | n => refuse n (.expected what)

def items (what : Expected) : Node → Result (List Node)
  | .sequence _ items => .ok items
  | n => refuse n (.expected what)

def type (n : Node) : Result Ty := do
  let source ← nonEmpty .type n
  match Ty.parse (Text.Source.ofString source) with
  | .ok t => return t
  | .error e => refuse n (.invalidType e)

def types (n : Node) : Result (List Ty) := do (← items .types n).mapM type

def genericType (n : Node) : Result Scheme := do
  let source ← nonEmpty .genericType n
  match Scheme.parse (Text.Source.ofString source) with
  | .ok s => return s
  | .error e => refuse n (.invalidType e)

/-- A parameter: a name, and a type after a colon if one is given. -/
def param (n : Node) : Result Param := do
  let source := (← nonEmpty .parameter n).toList
  let name := String.ofList (Text.trim (source.takeWhile (· ≠ ':')))
  if name = "" then refuse n .missingParamName
  else match source.dropWhile (· ≠ ':') with
    | [] => return ⟨name, .absent⟩
    | _ :: annot =>
      match Ty.parse (annot.map some) with
      | .ok t => return ⟨name, t⟩
      | .error e => refuse n (.invalidParam name e)

variable [Scalars]

def intLiteral : Node → Result Expr
  | .scalar mark _ tag value =>
    match Scalars.int64? tag value with
    | some n => .ok (.int n .absent)
    | none => .error ⟨mark, .invalidInteger value⟩
  | n => refuse n (.expected .integer)

def strLiteral : Node → Result Expr
  | .scalar _ _ _ value => .ok (.str value .absent)
  | n => refuse n (.expected .string)

/-- A scalar that stands for an expression: a string in quotes, an integer, or a name. -/
def scalar (mark : Mark) (style : Yaml.Style) (tag value : String) : Result Expr :=
  if style = .singleQuoted || style = .doubleQuoted then .ok (.str value .absent)
  else if tag = "!!int" then intLiteral (.scalar mark style tag value)
  else if tag = "!!str" || tag = "!!bool" then .ok (.var value none .absent)
  else .error ⟨mark, .unexpectedScalar tag value⟩

/-! ## Forms

`read` reads the expressions below. -/

def exprs (read : Node → Result Expr) (n : Node) : Result (List Expr) := do
  (← items .expressions n).mapM read

/-- A function: its parameters, the type of its result, and its body. -/
def function (read : Node → Result Expr) (params : Node) (fs : List Field) :
    Result (List Param × Ty × Expr) := do
  let ps ← (← items .parameters params).mapM param
  let result ← optional fs "returns" .absent type
  match value? fs "body" with
  | none => refuse params (.missingField "body" .fn)
  | some body => return (ps, result, ← read body)

def binding (read : Node → Result Expr) : Node → Result Binding
  | .mapping mark entries => do
    let fs ← fields entries
    onlyFields bindingFields .unexpectedBindingField fs
    let name ← match value? fs "name" with
      | none => .error ⟨mark, .missingBindingField "name"⟩
      | some n => nonEmpty .functionName n
    let scheme ← optional fs "type" none fun n => some <$> genericType n
    match value? fs "fn" with
    | none => .error ⟨mark, .missingBindingField "fn"⟩
    | some params =>
      let (ps, result, body) ← function read params fs
      return .fn name scheme ps result body .absent
  | n => refuse n (.expected .function)

/-- The expression of a form. `whole` is the mapping, `head` the value of the field that shows the
form. -/
def formed (read : Node → Result Expr) (whole : Node) (head : Node) (fs : List Field) :
    Form → Result Expr
  | .int => intLiteral head
  | .str => strLiteral head
  | .var => do
    let name ← nonEmpty .variableName head
    let args ← optional fs "types" none fun n => some <$> types n
    return .var name args .absent
  | .fn => do
    let (params, result, body) ← function read head fs
    return .func params result body .absent
  | .call => do
    let callee ← read head
    let args ← optional fs "args" [] (exprs read)
    return .call callee args .absent
  | .letIn => do
    -- a value that is left out is reported before the body is read
    let name ← nonEmpty .variableName head
    let annot ← optional fs "type" .absent type
    match value? fs "value" with
    | none => refuse whole (.missingField "value" .letIn)
    | some n =>
      let value ← read n
      let body ← optional fs "in" .absent read
      return .letIn name annot value body .absent
  | .array => do
    let es ← exprs read head
    let item ← optional fs "of" .absent type
    return .array item es .absent
  | .group => do
    let bindings ← (← items .functions head).mapM (binding read)
    match value? fs "in" with
    | none => refuse whole (.missingField "in" .group)
    | some n => return .group bindings (← read n) .absent
  | .seq => do
    match ← exprs read head with
    | [effect, value] => return .seq effect value .absent
    | es => refuse head (.seqLength es.length)
  | .block => do return .block (← exprs read head) .absent

/-- One level of an expression. -/
def level (read : Node → Result Expr) : Node → Result Expr
  | .reference _ target => read target
  | .scalar mark style tag value => scalar mark style tag value
  | .mapping mark entries => do
    let n := Node.mapping mark entries
    let fs ← fields entries
    let (f, head) ← form n fs
    onlyFields (f.name :: f.extras) (.unexpectedField · f) fs
    formed read n head fs f
  | .sequence mark _ => .error ⟨mark, .expected .expression⟩

/-- Reads an expression down to a given depth. -/
def readTo : (depth : Nat) → Node → Result Expr
  | 0, n => refuse n (.expected .expression)
  | depth + 1, n => level (readTo depth) n

end Polytype.Document

namespace Polytype

inductive DocumentError where
  | syntactic
  | empty
  | structural (error : Document.Error)
deriving DecidableEq

/-- The message of an error; faults of YAML itself are not described further. -/
def DocumentError.message : DocumentError → String
  | syntactic => "invalid document"
  | empty => "empty document"
  | structural error => error.message

variable [Yaml.Scalars]

/-- The expression that a tree of nodes describes. -/
def Expr.ofNode (n : Yaml.Node) : Except Document.Error Expr := Document.readTo n.depth n

def Expr.ofDocument (text : String) : Except DocumentError Expr :=
  match Yaml.Node.ofText? text with
  | none => .error .syntactic
  | some none => .error .empty
  | some (some root) => (Expr.ofNode root).mapError .structural

end Polytype
