import Mathlib
import Polytype.Proofs.Infer.Invariant

/-!
# Sessions

A context is used for one call after another. A run leaves its state behind, whether it ends well or is
stopped somewhere: variables and their bindings, equations that nobody solved, the number of groups, what
was reported, and the error. None of it shows in a later call (`context_forgets`).

The invariant is that a context is cleared to the new one: it is the new one, or it is marked as used. A
call without a program leaves the context as it is, and a reset of a context that is not marked does
nothing, so that the mark has to be right at every return.
-/

namespace Polytype

/-- A request to a context: a call for a program in an environment, or a reset. -/
inductive Request where
  | infer (root : Expr) (env : Option Env)
  | inferGeneric (root : Expr) (env : Option Env)
  | annotate (root : Expr) (env : Option Env)
  | annotateGeneric (root : Expr) (env : Option Env)
  | reset

namespace Context

/-- The context after a request. -/
def serve (c : Context) : Request → Context
  | .infer root env => (c.infer root env).2
  | .inferGeneric root env => (c.inferGeneric root env).2
  | .annotate root env => (c.annotate root env).2
  | .annotateGeneric root env => (c.annotateGeneric root env).2
  | .reset => c.reset

/-- The context after a session of requests. -/
def serveAll (c : Context) (history : List Request) : Context := history.foldl serve c

section

variable {α : Type} {c : Context}

/-- After a call a context is cleared to the new one if it was before. -/
theorem reset_call (hc : c.reset = .new) (root : Expr) (action : InferM α) :
    (c.call root action).2.reset = .new := by
  cases hr : root.isAbsent with
  | true =>
    rw [call, hr]
    exact hc
  | false =>
    -- however the action ends, the context is marked
    rw [call_eq c hr]
    cases action c.reset.run with
    | ok a run => rfl
    | error stop run =>
      cases stop with
      | failed e => rfl
      | fault f => rfl

/-- One request keeps the invariant. -/
theorem reset_serve (hc : c.reset = .new) (r : Request) : (c.serve r).reset = .new := by
  cases r with
  | infer root env => exact reset_call hc root _
  | inferGeneric root env => exact reset_call hc root _
  | annotate root env => exact reset_call hc root _
  | annotateGeneric root env => exact reset_call hc root _
  | reset =>
    show c.reset.reset = .new
    rw [hc]
    rfl

/-- A session keeps the invariant. -/
theorem reset_serveAll (hc : c.reset = .new) (history : List Request) :
    (c.serveAll history).reset = .new := by
  induction history generalizing c with
  | nil => exact hc
  | cons r history ih => exact ih (reset_serve hc r)

end

/-- Two contexts answer a call alike: it has the same outcome, which is the result or the error and what
was reported, and leaves the same context behind, with the error and the expression to blame. A call
without a program leaves behind what it found. -/
def Alike {α : Type} (root : Expr) (answer answer' : Outcome α × Context) : Prop :=
  answer.1 = answer'.1 ∧ (root = .absent ∨ answer.2 = answer'.2)

/-- A context that is cleared to the new one answers calls like the new one. -/
theorem call_alike {α : Type} {c : Context} (hc : c.reset = .new) (root : Expr) (action : InferM α) :
    Alike root (c.call root action) (new.call root action) := by
  cases hr : root.isAbsent with
  | true =>
    refine ⟨?_, .inl (Expr.isAbsent_iff.mp hr)⟩
    rw [call, call, hr]
    rfl
  | false =>
    have heq : c.call root action = new.call root action := by
      rw [call_eq c hr, call_eq new hr, hc]
      rfl
    exact ⟨congrArg Prod.fst heq, .inr (congrArg Prod.snd heq)⟩

end Context

/-- A context has no memory: after any session it answers the next call like a new one. -/
theorem context_forgets (history : List Request) (e : Expr) (env : Option Env) :
    let c := Context.new.serveAll history
    Context.Alike e (c.infer e env) (Context.new.infer e env) ∧
      Context.Alike e (c.inferGeneric e env) (Context.new.inferGeneric e env) ∧
      Context.Alike e (c.annotate e env) (Context.new.annotate e env) ∧
      Context.Alike e (c.annotateGeneric e env) (Context.new.annotateGeneric e env) := by
  intro c
  have hc : c.reset = .new := Context.reset_serveAll rfl history
  refine ⟨?_, ?_, ?_, ?_⟩ <;> exact Context.call_alike hc e _

end Polytype
