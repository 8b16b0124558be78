import Polytype.Constraint
import Polytype.Infer.Generalize

/-!
# Inference

`infer env expected e` gives every node of `e` a type. It allocates variables for what is not known,
queues the equations between them, and returns the tree with a type at every node, in which the
variables are still to be resolved.

Only the functions of a group are generalised. When a group's functions have been inferred, all
equations that are pending are solved; then each function that has no generic type of its own is
closed over the variables that are free in its type but not in the environment.
-/

namespace Polytype

/-- Why a program has no type. -/
inductive InferError where
  | unify (error : UnifyError)
  | unbound (name : String)
  | arity (name : String) (expected actual : Nat)
  | emptyBlock
  | emptyExpression
  /-- A missing expression, or one of an unknown kind. -/
  | unhandled (kind : Option String)
deriving DecidableEq

def InferError.message : InferError → String
  | unify error => error.message
  | unbound name => "Variable " ++ name ++ " not found"
  | arity name expected actual =>
    "Variable " ++ name ++ " expects " ++ Text.natural expected ++ " type arguments, found " ++
      Text.natural actual
  | emptyBlock => "Empty block"
  | emptyExpression => "Empty expression"
  | unhandled none => "Unhandled expression (nil)"
  | unhandled (some kind) => "Unhandled expression (" ++ kind ++ ")"

/-- What inference reports while it runs. -/
inductive Event where
  /-- A group's functions have been inferred, and the pending constraints are about to be solved. -/
  | solving (group functions constraints : Nat)
  | generalized (group : Nat) (name : String) (type : Scheme)
deriving DecidableEq

def Event.message : Event → String
  | solving .. => "solving function group"
  | generalized .. => "generalized function"

def Event.attributes : Event → List (String × String)
  | solving group functions constraints =>
    [("group", Text.natural group), ("functions", Text.natural functions),
      ("constraints", Text.natural constraints)]
  | generalized group name type =>
    [("group", Text.natural group), ("name", name), ("type", type.text)]

/-- The state of a run. -/
structure Run where
  store : Store
  queue : Queue
  names : NameSupply
  /-- How many groups were met. -/
  groups : Nat
  error : Option InferError
  /-- The expression to blame. -/
  invalid : Expr
  log : Array Event

def Run.start : Run := ⟨.empty, #[], .new, 0, none, .absent, #[]⟩

instance : Inhabited Run := ⟨Run.start⟩

/-- Why a run stopped. -/
inductive Stop where
  | failed (error : InferError)
  /-- The program or the environment is not well formed. -/
  | fault (fault : Fault)
deriving DecidableEq

abbrev InferM := EStateM Stop Run

namespace InferM

def fresh : InferM Ty :=
  modifyGet fun run => let (v, store) := run.store.fresh; (v, { run with store })

def freshList (count : Nat) : InferM (List Ty) :=
  modifyGet fun run => let (vs, store) := run.store.freshList count; (vs, { run with store })

/-- The annotation, or a new variable where there is none. -/
def orFresh : Ty → InferM Ty
  | .absent => fresh
  | t => pure t

def emit (expected actual : Ty) (expr : Expr) : InferM Unit :=
  modify fun run => { run with queue := run.queue.emit expected actual expr }

def report (event : Event) : InferM Unit := modify fun run => { run with log := run.log.push event }

/-- Stops with an error, which is kept with the expression to blame. -/
def fail {α : Type} (error : InferError) (invalid : Expr) : InferM α := do
  modify fun run => { run with error := some error, invalid }
  throw (.failed error)

/-- Stops because two types were not unified. -/
def refuse {α : Type} (error : UnifyError) (invalid : Expr) : InferM α :=
  match error with
  | .broken f => throw (.fault f)
  | e => fail (.unify e) invalid

/-- A computation that may come to a fault. -/
def lift {α : Type} : Except Fault α → InferM α
  | .ok a => pure a
  | .error f => throw (.fault f)

variable [Traversals]

def unify (a b : Ty) (invalid : Expr) : InferM Unit := do
  let run ← get
  let (store, error) := Traversals.unify run.store a b
  set { run with store }
  match error with
  | none => pure ()
  | some e => refuse e invalid

/-- Solves all pending equations. For one that comes from no expression, another is to blame. -/
def solveFor (otherwise : Expr) : InferM Unit := do
  let run ← get
  let ((store, error), queue) := run.queue.solve run.store
  set { run with store, queue }
  match error with
  | none => pure ()
  | some (e, invalid) => refuse e (if invalid.isAbsent then otherwise else invalid)

def solve : InferM Unit := solveFor .absent

/-- An instance of a generic type, and the variables that stand for its parameters. -/
def instantiate (g : Scheme) : InferM (Ty × List Ty) :=
  modifyGet fun run => let (r, store) := g.instantiate run.store; (r, { run with store })

/-- The generic type of a type in an environment, with the store that names its parameters. The scope is
walked for the names to avoid when there are parameters. -/
def close (env : Env) (t : Ty) (scope : Expr) : InferM (Scheme × Option Store) := do
  let run ← get
  let (g, named, names) ← lift (closeOver run.store run.names env t scope)
  if named.isSome then
    let _ ← lift scope.walk
  set { run with names }
  return (g, named)

end InferM

open InferM

/-- Unifies given type arguments with the variables of the parameters, from left to right. -/
def unifyTypeArgs [Traversals] (invalid : Expr) : List Ty → List Ty → InferM Unit
  | [], _ => pure ()
  | arg :: args, v :: vs => do
    unify arg v invalid
    unifyTypeArgs invalid args vs
  | _ :: _, [] => throw (.fault .outOfRange)

/-- The parameters of a function with a type for each, and the environment inside the function. -/
def openParams (env : Env) : List Param → InferM (List Param × Env)
  | [] => pure ([], env)
  | p :: ps => do
    let t ← orFresh p.ty
    let (ps, env) ← openParams (env.declare p.name t) ps
    return (⟨p.name, t⟩ :: ps, env)

def closeFunc (expected : Ty) (params : List Param) (result : Ty) (body : Expr) : InferM Expr := do
  let typed := Expr.func params result body expected
  emit expected (.function (params.map (·.ty)) result) typed
  return typed

/-- The generic types that the functions of a group have inside the group: their own, or a new
variable. -/
def placeholders : List Binding → InferM (List Scheme)
  | [] => pure []
  | b :: bs => do
    let g ← match b.scheme with
      | some g => pure g
      | none => Scheme.mono <$> fresh
    return g :: (← placeholders bs)

def Env.extendGroup (env : Env) : List Binding → List Scheme → Env
  | b :: bs, g :: gs => (env.extend b.name (some g)).extendGroup bs gs
  | _, _ => env

/-- The environment for the items of a block after one that has been inferred. -/
def Env.after (env : Env) : Expr → Env
  | .letIn name annot _ .absent _ => env.declare name annot
  | _ => env

variable [Traversals]

/-- Gives an inferred function of a group its generic type, which is its own if it has one.
Otherwise the variables that become parameters are replaced by them in the whole function. -/
def generalize (env : Env) (own : Option Scheme) (placeholder : Scheme) :
    Binding → InferM (Scheme × Binding)
  | .fn name _ params result body ty =>
    match own with
    | some g => return (g, .fn name (some g) params result body ty)
    | none => do
      let (g, named) ← close env placeholder.body (.func params result body ty)
      match named with
      | none => return (g, .fn name (some g) params result body ty)
      | some store =>
        -- the generic type is set afterwards, since its parameters are not to be replaced
        let named ← lift <|
          Expr.retypeBinding (Traversals.resolve store) (.fn name none params result body ty)
        return (g, named.withScheme g)
  | .missing .. => throw (.fault .missingFunction)

/-- Generalises the functions of a group in order. Free variables are counted in the environment
outside the group; the result is the environment in which all functions are bound. -/
def generalizeAll (group : Nat) (outside : Env) :
    (env : Env) → List Binding → List Scheme → List Binding → InferM (List Binding × Env)
  | env, [], _, _ => pure ([], env)
  | env, b :: bs, placeholder :: ps, typed :: ts => do
    let (g, done) ← generalize outside b.scheme placeholder typed
    report (.generalized group b.name g)
    let (rest, env) ← generalizeAll group outside (env.extend b.name (some g)) bs ps ts
    return (done :: rest, env)
  | _, _, _, _ => throw (.fault .outOfRange)

mutual

/-- Infers an expression whose type is to be `expected`. -/
def infer (env : Env) (expected : Ty) : Expr → InferM Expr
  | .int value _ => do
    let typed := Expr.int value expected
    emit expected .int typed
    return typed
  | .str value _ => do
    let typed := Expr.str value expected
    emit expected .string typed
    return typed
  | .var name typeArgs ty => do
    let invalid := Expr.var name typeArgs ty
    match env.lookup? name with
    | none => fail (.unbound name) invalid
    | some none => throw (.fault .missingScheme)
    | some (some g) =>
      let (t, vars) ← instantiate g
      -- an empty list of type arguments is checked too; only an absent one asks for nothing
      if let some args := typeArgs then
        if args.length != g.params.length then
          fail (.arity name g.params.length args.length) invalid
        unifyTypeArgs invalid args vars
      let typed := Expr.var name typeArgs expected
      emit expected t typed
      return typed
  | .func params result body _ => do
    let (params, inner) ← openParams env params
    let result ← orFresh result
    let body ← infer inner result body
    closeFunc expected params result body
  | .call callee args _ => do
    let argTypes ← freshList args.length
    let callee ← infer env (.function argTypes expected) callee
    let args ← inferEach env argTypes args
    return .call callee args expected
  | .letIn name annot value body _ => do
    let annot ← orFresh annot
    let value ← infer env annot value
    if body.isAbsent then
      -- the node itself has the type of the value; the items after it see the name through `Env.after`
      let typed := Expr.letIn name annot value .absent expected
      emit expected annot typed
      return typed
    else
      let body ← infer (env.declare name annot) expected body
      return .letIn name annot value body expected
  | .group bindings body ty => do
    modify fun run => { run with groups := run.groups + 1 }
    let group := (← get).groups
    let inside ← placeholders bindings
    -- all of the queue is solved here, also what was pending before the group
    let typed ← inferBindings (env.extendGroup bindings inside) inside bindings
    report (.solving group bindings.length (← get).queue.size)
    solveFor (.group bindings body ty)
    let (typed, outer) ← generalizeAll group env env bindings inside typed
    let body ← infer outer expected body
    return .group typed body expected
  | .array item items _ => do
    let item ← orFresh item
    let items ← inferAll env item items
    let typed := Expr.array item items expected
    emit expected (.array item) typed
    return typed
  | .seq effect value _ => do
    let effect ← infer env (← fresh) effect
    let value ← infer env expected value
    return .seq effect value expected
  | .block items ty => do
    if items.isEmpty then fail .emptyBlock (.block items ty)
    let items ← inferItems env expected items
    return .block items expected
  | .absent => fail (.unhandled none) .absent
  | .other kind => fail (.unhandled (some kind)) (.other kind)

def inferAll (env : Env) (expected : Ty) : List Expr → InferM (List Expr)
  | [] => pure []
  | e :: es => do
    let e ← infer env expected e
    return e :: (← inferAll env expected es)

def inferEach (env : Env) : List Ty → List Expr → InferM (List Expr)
  | _, [] => pure []
  | t :: ts, e :: es => do
    let e ← infer env t e
    return e :: (← inferEach env ts es)
  | [], _ :: _ => throw (.fault .outOfRange)

/-- Infers the items of a block; the last has the expected type. -/
def inferItems (env : Env) (expected : Ty) : List Expr → InferM (List Expr)
  | [] => pure []
  | [e] => return [← infer env expected e]
  | e :: es => do
    let e ← infer env (← fresh) e
    return e :: (← inferItems (env.after e) expected es)

def inferBinding (env : Env) (expected : Ty) : Binding → InferM Binding
  | .fn name _ params result body _ => do
    let (params, inner) ← openParams env params
    let result ← orFresh result
    let body ← infer inner result body
    let _ ← closeFunc expected params result body
    return .fn name none params result body expected
  | .missing .. => fail (.unhandled none) .absent

def inferBindings (env : Env) : List Scheme → List Binding → InferM (List Binding)
  | _, [] => pure []
  | g :: gs, b :: bs => do
    let b ← inferBinding env g.body b
    return b :: (← inferBindings env gs bs)
  | [], _ :: _ => throw (.fault .outOfRange)

end

/-- Infers a whole program: the tree with all types resolved, and the type of its root. -/
def inferRoot (env : Env) (root : Expr) : InferM (Expr × Ty) := do
  let expected ← fresh
  let typed ← infer env expected root
  solve
  let store := (← get).store
  let typed ← lift (typed.retype (Traversals.resolve store))
  return (typed, ← lift (Traversals.resolve store expected))

end Polytype
