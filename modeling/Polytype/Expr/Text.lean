import Polytype.Expr.Basic
import Polytype.Text.Quoted

/-!
# Expressions as text

    let rec f: <A> Function1<A, A> = (x: A) -> x and g = () -> f(1) in { let a = "s"; (a; [a]) }

Annotations are written where they are present. A function, `let` or group in the place of a callee
is put in parentheses.
-/

namespace Polytype

/-- An annotation after a name, or nothing. -/
def annotationText : Ty → String
  | .absent => ""
  | t => ": " ++ t.text

def Param.text (p : Param) : String := p.name ++ annotationText p.ty

/-- What comes before a function's body. -/
def headText (params : List Param) (result : Ty) : String :=
  "(" ++ String.intercalate ", " (params.map Param.text) ++ ")" ++ annotationText result ++ " -> "

/-- Types given for generic parameters, if there are any. -/
def typeArgsText : Option (List Ty) → String
  | some (t :: ts) => "<" ++ String.intercalate ", " ((t :: ts).map Ty.text) ++ ">"
  | _ => ""

def itemText : Ty → String
  | .absent => ""
  | t => "<" ++ t.text ++ ">"

def schemeText : Option Scheme → String
  | none => ""
  | some g => ": " ++ g.text

/-- Puts a text in parentheses where it stands for a callee. -/
def inParens (callee : Bool) (s : String) : String := if callee then "(" ++ s ++ ")" else s

namespace Expr

mutual

/-- An expression as text, in the place of a callee or elsewhere. -/
def printAt (callee : Bool) : Expr → Except Fault String
  | absent => .ok "<nil>"
  | int value _ => .ok (Text.integer value.toInt)
  | str value _ => .ok (Text.quoted value)
  | var name typeArgs _ => .ok (name ++ typeArgsText typeArgs)
  | func params result body _ => do
    return inParens callee (headText params result ++ (← printAt false body))
  | call fn args _ => do
    let fn ← printAt true fn
    let args ← printList args
    return fn ++ "(" ++ String.intercalate ", " args ++ ")"
  | letIn name annot value body _ => do
    let bound := "let " ++ name ++ annotationText annot ++ " = " ++ (← printAt false value)
    if body.isAbsent then return inParens callee bound
    else return inParens callee (bound ++ " in " ++ (← printAt false body))
  | group bindings body _ => do
    let bindings ← printBindings bindings
    let body ← printAt false body
    return inParens callee ("let rec " ++ String.intercalate " and " bindings ++ " in " ++ body)
  | array item items _ => do
    let items ← printList items
    return itemText item ++ "[" ++ String.intercalate ", " items ++ "]"
  | seq effect value _ => do
    let effect ← printAt false effect
    let value ← printAt false value
    return "(" ++ effect ++ "; " ++ value ++ ")"
  | block items _ => do
    let items ← printList items
    return "\x7b" ++ String.intercalate ";" (items.map (" " ++ ·)) ++ " \x7d"
  | other _ => .ok ""

def printList : List Expr → Except Fault (List String)
  | [] => .ok []
  | e :: es => do
    let e ← printAt false e
    return e :: (← printList es)

/-- A function of a group as text; a missing one has none. -/
def printBinding : Binding → Except Fault String
  | .fn name scheme params result body _ => do
    return name ++ schemeText scheme ++ " = " ++ headText params result ++ (← printAt false body)
  | .missing .. => .error .missingFunction

def printBindings : List Binding → Except Fault (List String)
  | [] => .ok []
  | b :: bs => do
    let b ← printBinding b
    return b :: (← printBindings bs)

end

def print (e : Expr) : Except Fault String := e.printAt false

end Expr

end Polytype
