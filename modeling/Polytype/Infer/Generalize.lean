import Polytype.Env
import Polytype.Expr.Walk
import Polytype.Traversals

/-!
# Generalisation

A type is closed over the unbound variables that the environment does not mention: each gets a name
of its own and becomes a parameter.
-/

namespace Polytype

/-- The parameters of all generic types that groups inside an expression give their functions. -/
def Expr.groupParams (scope : Expr) : List String :=
  scope.visits.flatMap fun
    | .ok (.group bindings _ _) => bindings.flatMap fun b => (b.scheme.map (·.params)).getD []
    | _ => []

variable [Traversals]

/-- Adds the unbound variables of what a name is bound to. -/
def collectEntry (s : Store) (vs : VarSet) : String × Option Scheme → Except Fault VarSet
  | (_, some g) => Traversals.collect s vs g.body
  | (_, none) => .error .missingScheme

def Env.freeVars (env : Env) (s : Store) : Except Fault VarSet :=
  env.entries.foldlM (collectEntry s) .empty

/-- Names variables in order, binding each to the constructor of its name. The names are those of a
supply that are no constructors of the type. -/
def nameVars (t : Ty) : List Int → NameSupply → Store → Except Fault (List String × Store × NameSupply)
  | [], names, s => .ok ([], s, names)
  | id :: ids, names, s => do
    let (name, names) ← Traversals.nextName names t
    match s.bind? id (.con name []) with
    | none => .error .outOfRange
    | some s =>
      let (params, s, names) ← nameVars t ids names s
      return (name :: params, s, names)

/-- The generic type of a type in an environment. If it has parameters, there is also a store in
which the variables they stand for are bound to them. The supply of names starts again; names that groups
inside the scope use for their own parameters are not used. -/
def closeOver (s : Store) (names : NameSupply) (env : Env) (t : Ty) (scope : Expr) :
    Except Fault (Scheme × Option Store × NameSupply) := do
  let resolved ← Traversals.resolve s t
  let free ← Traversals.collect s .empty resolved
  -- the environment is looked at only now, so a missing type in it does not always show
  if free.ids.isEmpty then return (.mono resolved, none, names)
  let bound ← env.freeVars s
  let ids := free.without bound
  if ids.isEmpty then return (.mono resolved, none, names)
  let names := scope.groupParams.foldl NameSupply.avoid names.reset
  let (params, closed, names) ← nameVars resolved ids names s
  return (⟨params, ← Traversals.resolve closed resolved⟩, some closed, names)

end Polytype
