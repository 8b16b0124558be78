import Polytype.Infer.Basic

/-!
# Contexts

A context runs inference again and again. A run leaves its state behind, and the next one clears it
before it starts; in between the context tells how the last run ended.
-/

namespace Polytype

/-- The reusable state of inference. -/
structure Context where
  /-- What the last run left behind. -/
  run : Run
  /-- Whether there was a run since the state was last cleared. -/
  used : Bool

/-- Why a call gives no result. -/
inductive Trouble where
  | error (error : InferError)
  | fault (fault : Fault)
deriving DecidableEq

structure Outcome (α : Type) where
  result : Except Trouble α
  log : List Event

namespace Context

def new : Context := ⟨.start, false⟩

instance : Inhabited Context := ⟨new⟩

/-- Clears a context that has been used. -/
def reset (c : Context) : Context :=
  if c.used then
    let run := { c.run with
      store := .empty, queue := #[], names := c.run.names.reset,
      groups := 0, error := none, invalid := .absent }
    { c with run, used := false }
  else c

def error? (c : Context) : Option InferError := c.run.error

/-- The expression to blame for the last run's error; `Expr.absent` if there is none. -/
def invalid (c : Context) : Expr := c.run.invalid

/-- What a run leaves behind. What was reported has been handed on. -/
def after (run : Run) : Context := ⟨{ run with log := #[] }, true⟩

/-- Runs an action on a program. There is nothing to run when the program is missing, and the
context stays as it is. -/
def call {α : Type} (c : Context) (root : Expr) (action : InferM α) : Outcome α × Context :=
  if root.isAbsent then (⟨.error (.error .emptyExpression), []⟩, c)
  else
    match action.run c.reset.run with
    | .ok a run => (⟨.ok a, run.log.toList⟩, after run)
    | .error (.failed e) run => (⟨.error (.error e), run.log.toList⟩, after run)
    | .error (.fault f) run => (⟨.error (.fault f), run.log.toList⟩, after run)

variable [Traversals]

/-- The type of a program. An absent environment is the empty one. -/
def infer (c : Context) (root : Expr) (env : Option Env) : Outcome Ty × Context :=
  c.call root do
    let (_, t) ← inferRoot (env.getD .empty) root
    return t

def inferGeneric (c : Context) (root : Expr) (env : Option Env) : Outcome Scheme × Context :=
  c.call root do
    let (_, t) ← inferRoot (env.getD .empty) root
    let (g, _) ← InferM.close (env.getD .empty) t .absent
    return g

def annotate (c : Context) (root : Expr) (env : Option Env) : Outcome Expr × Context :=
  c.call root do
    let (typed, _) ← inferRoot (env.getD .empty) root
    return typed

def annotateGeneric (c : Context) (root : Expr) (env : Option Env) :
    Outcome (Expr × Scheme) × Context :=
  c.call root do
    let (typed, t) ← inferRoot (env.getD .empty) root
    let (g, _) ← InferM.close (env.getD .empty) t .absent
    return (typed, g)

end Context

end Polytype
