import Polytype.Expr.Basic
import Polytype.Graph.Components

/-!
# Names in use

The free names of an expression, and the order in which the functions of a group depend on each
other. A traversal counts for each name how often it is bound around the place it has come to. A `let`
binds in its body but not in its value; without a body it binds for the rest of the block that it is an
item of. A group binds all its names in all its functions and in its body.
-/

namespace Polytype

/-- How often names are bound around a place, and the free names met so far. -/
structure NameScope where
  bound : String → Int
  free : List String

namespace NameScope

def empty : NameScope := ⟨fun _ => 0, []⟩

def bind (s : NameScope) (name : String) : NameScope :=
  { s with bound := fun x => if x = name then s.bound x + 1 else s.bound x }

def unbind (s : NameScope) (name : String) : NameScope :=
  { s with bound := fun x => if x = name then s.bound x - 1 else s.bound x }

def meet (s : NameScope) (name : String) : NameScope :=
  if s.bound name = 0 ∧ !s.free.contains name then { s with free := name :: s.free } else s

mutual

def expr : NameScope → Expr → NameScope
  | s, .var name _ _ => s.meet name
  | s, .func params _ body _ =>
    let inner := expr (params.foldl (fun s p => s.bind p.name) s) body
    params.foldl (fun s p => s.unbind p.name) inner
  | s, .call fn args _ => exprs (expr s fn) args
  | s, .letIn name _ value body _ =>
    let s := expr s value
    if body.isAbsent then s else (expr (s.bind name) body).unbind name
  | s, .group bindings body _ =>
    let inner := functions (bindings.foldl (fun s b => s.bind b.name) s) bindings
    bindings.foldl (fun s b => s.unbind b.name) (expr inner body)
  | s, .array _ items _ => exprs s items
  | s, .seq effect value _ => expr (expr s effect) value
  | s, .block exprs _ => items s exprs []
  | s, .absent | s, .int .. | s, .str .. | s, .other _ => s

def exprs : NameScope → List Expr → NameScope
  | s, [] => s
  | s, e :: es => exprs (expr s e) es

/-- The items of a block are traversed; `before` are the names that those before have bound. -/
def items : NameScope → List Expr → (before : List String) → NameScope
  | s, [], before => before.foldl unbind s
  | s, e :: es, before =>
    match e.boundAfter? with
    | some name => items ((expr s e).bind name) es (before ++ [name])
    | none => items (expr s e) es before

def function : NameScope → Binding → NameScope
  | s, .fn _ _ params _ body _ =>
    let inner := expr (params.foldl (fun s p => s.bind p.name) s) body
    params.foldl (fun s p => s.unbind p.name) inner
  | s, .missing .. => s

def functions : NameScope → List Binding → NameScope
  | s, [] => s
  | s, b :: bs => functions (function s b) bs

end

end NameScope

/-- The free names in ascending order. -/
def Expr.freeNames (e : Expr) : List String :=
  (NameScope.empty.expr e).free.mergeSort fun a b => decide (a ≤ b)

namespace Binding

/-- The place of each name in a group. Of two functions of one name the later is meant. -/
def places (bindings : List Binding) : String → Option Nat :=
  bindings.zipIdx.foldl (fun places b => fun name => if name = b.1.name then some b.2 else places name)
    fun _ => none

/-- The places in a group of the functions that a function refers to. -/
def references (bindings : List Binding) (b : Binding) : List Nat :=
  ((NameScope.empty.function b).free.filterMap (places bindings)).mergeSort fun i j => decide (i ≤ j)

def graph (bindings : List Binding) : Graph := (bindings.map (references bindings)).toArray

/-- The functions of a group in components that refer to each other, each component after those it
refers to. -/
def components (bindings : List Binding) : Except Fault (List (List Nat)) := (graph bindings).components

end Binding

end Polytype
