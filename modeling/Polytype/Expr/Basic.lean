import Polytype.Fault
import Polytype.Ty.Scheme

/-!
# Expressions

Programs are trees of ten kinds of nodes. Each node has a place for the type that inference finds
for it, `Ty.absent` until then; annotations that a program leaves out are `Ty.absent` too. A
sub-expression that is missing is `Expr.absent`, and a node of a kind that this library does not
handle is kept by the name of its kind.
-/

namespace Polytype

structure Param where
  name : String
  ty : Ty
deriving DecidableEq, Inhabited

mutual

/-- An expression. The last field of a node is its inferred type. -/
inductive Expr where
  /-- The place of a missing expression. -/
  | absent
  | int (value : Int64) (ty : Ty)
  | str (value : String) (ty : Ty)
  /-- A variable, with the types given for its generic parameters if any are. -/
  | var (name : String) (typeArgs : Option (List Ty)) (ty : Ty)
  | func (params : List Param) (result : Ty) (body : Expr) (ty : Ty)
  | call (callee : Expr) (args : List Expr) (ty : Ty)
  /-- A variable bound to a value. Without a body it binds for the rest of the block it
  stands in. -/
  | letIn (name : String) (annot : Ty) (value body : Expr) (ty : Ty)
  /-- Functions that may call each other, and the expression they are bound in. -/
  | group (bindings : List Binding) (body : Expr) (ty : Ty)
  | array (item : Ty) (items : List Expr) (ty : Ty)
  | seq (effect value : Expr) (ty : Ty)
  /-- Expressions in order, of which the last gives the value. -/
  | block (items : List Expr) (ty : Ty)
  | other (kind : String)

/-- A function of a group, with its generic type if that is given. -/
inductive Binding where
  | fn (name : String) (scheme : Option Scheme) (params : List Param) (result : Ty) (body : Expr)
      (ty : Ty)
  | missing (name : String) (scheme : Option Scheme)

end

instance : Inhabited Expr := ⟨.absent⟩

namespace Binding

def name : Binding → String
  | fn name .. => name
  | missing name _ => name

def scheme : Binding → Option Scheme
  | fn _ scheme .. => scheme
  | missing _ scheme => scheme

def withScheme (b : Binding) (g : Scheme) : Binding :=
  match b with
  | fn name _ params result body ty => fn name (some g) params result body ty
  | missing name _ => missing name (some g)

/-- The function as an expression of its own. -/
def func? : Binding → Option Expr
  | fn _ _ params result body ty => some (.func params result body ty)
  | missing .. => none

end Binding

namespace Expr

def kind : Expr → String
  | absent => ""
  | int .. => "IntLiteral"
  | str .. => "StringLiteral"
  | var .. => "Var"
  | func .. => "Func"
  | call .. => "Call"
  | letIn .. => "Let"
  | group .. => "LetGroup"
  | array .. => "Array"
  | seq .. => "Sequence"
  | block .. => "Block"
  | other kind => kind

def ty : Expr → Ty
  | absent => .absent
  | int _ ty => ty
  | str _ ty => ty
  | var _ _ ty => ty
  | func _ _ _ ty => ty
  | call _ _ ty => ty
  | letIn _ _ _ _ ty => ty
  | group _ _ ty => ty
  | array _ _ ty => ty
  | seq _ _ ty => ty
  | block _ ty => ty
  | other _ => .absent

def isAbsent : Expr → Bool
  | absent => true
  | _ => false

/-- The name that an item of a block binds for the items after it. -/
def boundAfter? : Expr → Option String
  | letIn name _ _ absent _ => some name
  | _ => none

end Expr

end Polytype
