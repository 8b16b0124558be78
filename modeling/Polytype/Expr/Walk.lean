import Polytype.Expr.Basic

/-!
# Walks over expressions

The nodes of a tree in pre-order, the change of all types of a tree, and copies.
-/

namespace Polytype

namespace Expr

/-! ## Pre-order -/

mutual

/-- What a walk meets: the nodes in pre-order, each before its parts and from left to right, and a
fault at each place where the walk could not go on. -/
def visits : Expr → List (Except Fault Expr)
  | absent => []
  | int value ty => [.ok (int value ty)]
  | str value ty => [.ok (str value ty)]
  | var name typeArgs ty => [.ok (var name typeArgs ty)]
  | func params result body ty => .ok (func params result body ty) :: visits body
  | call fn args ty => .ok (call fn args ty) :: (visits fn ++ visitsList args)
  | letIn name annot value body ty =>
    .ok (letIn name annot value body ty) :: (visits value ++ visits body)
  | group bindings body ty =>
    .ok (group bindings body ty) :: (visitsBindings bindings ++ visits body)
  | array item items ty => .ok (array item items ty) :: visitsList items
  | seq effect value ty => .ok (seq effect value ty) :: (visits effect ++ visits value)
  | block items ty => .ok (block items ty) :: visitsList items
  | other kind => [.error (.unknownKind kind)]

def visitsList : List Expr → List (Except Fault Expr)
  | [] => []
  | e :: es => visits e ++ visitsList es

def visitsBinding : Binding → List (Except Fault Expr)
  | .fn _ _ params result body ty => .ok (func params result body ty) :: visits body
  | .missing .. => [.error .missingFunction]

def visitsBindings : List Binding → List (Except Fault Expr)
  | [] => []
  | b :: bs => visitsBinding b ++ visitsBindings bs

end

/-- All nodes in pre-order, or the first fault. -/
def walk (e : Expr) : Except Fault (List Expr) := e.visits.mapM id

/-- A node as a listing shows it: its kind, its type and, for a group, each function's name, generic
type and type. -/
structure NodeInfo where
  kind : String
  ty : Ty
  functions : List (String × Option Scheme × Ty)

def functionInfo : Binding → Except Fault (String × Option Scheme × Ty)
  | .fn name scheme _ _ _ ty => .ok (name, scheme, ty)
  | .missing .. => .error .missingFunction

def nodeInfo : Expr → Except Fault NodeInfo
  | group bindings _ ty => do
    return { kind := "LetGroup", ty, functions := ← bindings.mapM functionInfo }
  | e => .ok { kind := e.kind, ty := e.ty, functions := [] }

/-- The listing of all nodes in pre-order. -/
def nodes (e : Expr) : Except Fault (List NodeInfo) := e.visits.mapM (· >>= nodeInfo)

/-- The functions of every group, in pre-order. -/
def groups (e : Expr) : Except Fault (List (List Binding)) := do
  let all ← e.walk
  return all.filterMap fun
    | group bindings _ _ => some bindings
    | _ => none

/-! ## Types -/

/-- Changes a type that is present. -/
def retypePresent (f : Ty → Except Fault Ty) : Ty → Except Fault Ty
  | .absent => .ok .absent
  | t => f t

def retypeParam (f : Ty → Except Fault Ty) (p : Param) : Except Fault Param := do
  return ⟨p.name, ← retypePresent f p.ty⟩

def retypeScheme (f : Ty → Except Fault Ty) (g : Scheme) : Except Fault Scheme := do
  return ⟨g.params, ← retypePresent f g.body⟩

mutual

/-- Changes every type of a tree, node by node in pre-order: annotations, type arguments and inferred
types. -/
def retype (f : Ty → Except Fault Ty) : Expr → Except Fault Expr
  | absent => .ok absent
  | int value ty => do return int value (← retypePresent f ty)
  | str value ty => do return str value (← retypePresent f ty)
  | var name typeArgs ty => do
    let typeArgs ← typeArgs.mapM (·.mapM (retypePresent f))
    return var name typeArgs (← retypePresent f ty)
  | func params result body ty => do
    let params ← params.mapM (retypeParam f)
    let result ← retypePresent f result
    let ty ← retypePresent f ty
    return func params result (← retype f body) ty
  | call fn args ty => do
    let ty ← retypePresent f ty
    let fn ← retype f fn
    return call fn (← retypeList f args) ty
  | letIn name annot value body ty => do
    let annot ← retypePresent f annot
    let ty ← retypePresent f ty
    let value ← retype f value
    return letIn name annot value (← retype f body) ty
  | group bindings body ty => do
    let ty ← retypePresent f ty
    let bindings ← retypeBindings f bindings
    return group bindings (← retype f body) ty
  | array item items ty => do
    let item ← retypePresent f item
    let ty ← retypePresent f ty
    return array item (← retypeList f items) ty
  | seq effect value ty => do
    let ty ← retypePresent f ty
    let effect ← retype f effect
    return seq effect (← retype f value) ty
  | block items ty => do
    let ty ← retypePresent f ty
    return block (← retypeList f items) ty
  | other kind => .error (.unknownKind kind)

def retypeList (f : Ty → Except Fault Ty) : List Expr → Except Fault (List Expr)
  | [] => .ok []
  | e :: es => do
    let e ← retype f e
    return e :: (← retypeList f es)

def retypeBinding (f : Ty → Except Fault Ty) : Binding → Except Fault Binding
  | .fn name scheme params result body ty => do
    let scheme ← scheme.mapM (retypeScheme f)
    let params ← params.mapM (retypeParam f)
    let result ← retypePresent f result
    let ty ← retypePresent f ty
    return .fn name scheme params result (← retype f body) ty
  | .missing .. => .error .missingFunction

def retypeBindings (f : Ty → Except Fault Ty) : List Binding → Except Fault (List Binding)
  | [] => .ok []
  | b :: bs => do
    let b ← retypeBinding f b
    return b :: (← retypeBindings f bs)

end

/-! ## Copies -/

mutual

/-- A copy of a tree, node by node: arguments before the callee, and the body of a `let` before its
value. A group may lack functions. -/
def copy : Expr → Except Fault Expr
  | absent => .ok absent
  | int value ty => .ok (int value ty)
  | str value ty => .ok (str value ty)
  | var name typeArgs ty => .ok (var name typeArgs ty)
  | func params result body ty => do return func params result (← copy body) ty
  | call fn args ty => do
    let args ← copyList args
    return call (← copy fn) args ty
  | letIn name annot value body ty => do
    let body ← copy body
    return letIn name annot (← copy value) body ty
  | group bindings body ty => do
    let bindings ← copyBindings bindings
    return group bindings (← copy body) ty
  | array item items ty => do return array item (← copyList items) ty
  | seq effect value ty => do
    let effect ← copy effect
    return seq effect (← copy value) ty
  | block items ty => do return block (← copyList items) ty
  | other kind => .error (.unknownKind kind)

def copyList : List Expr → Except Fault (List Expr)
  | [] => .ok []
  | e :: es => do
    let e ← copy e
    return e :: (← copyList es)

def copyBinding : Binding → Except Fault Binding
  | .fn name scheme params result body ty => do
    return .fn name scheme params result (← copy body) ty
  | .missing name scheme => .ok (.missing name scheme)

def copyBindings : List Binding → Except Fault (List Binding)
  | [] => .ok []
  | b :: bs => do
    let b ← copyBinding b
    return b :: (← copyBindings bs)

end

end Expr

end Polytype
