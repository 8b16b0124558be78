import Mathlib
import Polytype.Proofs.Document.Decoding
import Polytype.Proofs.Graph.Classes
import Polytype.Proofs.Infer.Failure
import Polytype.Proofs.Infer.Unbounded
import Polytype.Yaml.Tag

/-!
# Programs that are read can be processed

What is read from a document is well formed, and what is read from a configuration binds every name to a
type without variables. So a program from a document can be walked, copied, printed and split into
components without a fault, and inference either gives a result or refuses it for a reason that lies in the
program: two types that do not agree, an infinite type, an unbound name, a wrong number of type arguments or
an empty block. No list, array or store is read outside its bounds on the way, and since the same holds
without budgets for the searches, each of them ends.
-/

namespace Polytype

open InferM

/-- A call gives a result, or an error of a well-formed program. -/
def Outcome.Proper {α : Type} (o : Outcome α) : Prop :=
  (∃ a, o.result = .ok a) ∨ ∃ e, o.result = .error (.error e) ∧ e.Proper

/-- Each call on a program ends with a result or an error of a well-formed program. -/
structure Context.Safe [Traversals] (c : Context) (e : Expr) (env : Env) : Prop where
  infer : (c.infer e (some env)).1.Proper
  inferGeneric : (c.inferGeneric e (some env)).1.Proper
  annotate : (c.annotate e (some env)).1.Proper
  annotateGeneric : (c.annotateGeneric e (some env)).1.Proper

/-- A call on a program that is there ends as its action does. -/
theorem call_proper {α : Type} {c : Context} {root : Expr} {action : InferM α}
    (hroot : root.isAbsent = false) (h : action.Stops Stop.Proper c.reset.run) :
    (c.call root action).1.Proper := by
  rw [Context.call_eq c hroot]
  cases hrun : action c.reset.run with
  | ok a run => exact .inl ⟨a, rfl⟩
  | error stop run =>
    have hstop := h stop run hrun
    cases stop with
    | failed e => exact .inr ⟨e, rfl, hstop⟩
    | fault f => exact absurd hstop not_false

/-- What is safe with budgets is safe with exact searches. -/
theorem Context.Safe.exact [T : Traversals] (hT : T.Exact) {c : Context} {e : Expr} {env : Env}
    (h : @Context.Safe .bounded c e env) (hs : c.reset.run.store.Acyclic) : c.Safe e env := by
  obtain ⟨hinfer, hgeneric, hannotate, hboth⟩ := Context.calls_exact hT hs e (some env)
  obtain ⟨h₁, h₂, h₃, h₄⟩ := h
  rw [← hinfer] at h₁
  rw [← hgeneric] at h₂
  rw [← hannotate] at h₃
  rw [← hboth] at h₄
  exact ⟨h₁, h₂, h₃, h₄⟩

section

variable {env : Env} {e : Expr}

theorem inferRoot_stops (he : Document.Decoded e) (henv : env.Written) :
    (inferRoot env e).Stops Stop.Proper .start := by
  have hscope : env.Over .whole 0 := henv.types.imp fun _ hg => .of_body hg
  have hstart : (Run.start.alloc 1).Ready env (.var Run.start.store.size) :=
    ⟨(Run.Leads.alloc (Run.wf_start .whole) 1).wf, hscope.mono (Nat.zero_le _), henv.present,
      over_fresh .start⟩
  refine inferRoot_stops_of (infer_stops he.formed hstart he.written) fun typed run₁ htyped => ?_
  have hwf := (hstart.infer he.written htyped).1.wf
  refine stops_solveFor.mpr fun error x herror => refuse_stops ?_
  exact .of_solveList hwf.acyclic hwf.store hwf.queue herror

/-- Inference of what was read is safe in a context that has been cleared. -/
theorem Document.Decoded.safe (he : Document.Decoded e) (henv : env.Written) {c : Context}
    (hc : c.reset = .new) : c.Safe e env := by
  have hstart : c.reset.run = .start := by
    rw [hc]
    rfl
  have hroot : (inferRoot env e).Stops Stop.Proper c.reset.run := by
    rw [hstart]
    exact inferRoot_stops he henv
  have hclose : ∀ t run, (close env t .absent).Stops Stop.Proper run := fun t run =>
    close_stops ⟨[], rfl⟩ fun f hpres => absurd henv.present hpres
  obtain ⟨hinfer, hgeneric, hannotate, hboth⟩ := @Context.calls_of Stop.Proper (fun _ => True) c e
    (some env) (fun o => o.1.Proper) (fun h _ => call_proper he.formed.isAbsent h) hroot
    (fun _ _ _ => trivial) (fun t run _ => hclose t run) fun _ _ => trivial
  exact ⟨hinfer, hgeneric, hannotate, hboth⟩

/-- A program and an environment that were read are safe in every part of the library, with budgets for the
searches of inference and without. -/
theorem ofNode_safe [Yaml.Scalars] {n : Yaml.Node} (he : Expr.ofNode n = .ok e) {c : Config}
    (hc : c.env = .ok env) {ctx : Context} (hctx : ctx.reset = .new) :
    (∃ ns, e.walk = .ok ns) ∧ e.copy = .ok e ∧ (∃ s, e.print = .ok s) ∧
    (∃ gs, e.groups = .ok gs ∧ ∀ bs ∈ gs, ∃ cs, Binding.components bs = .ok cs ∧
      ∀ c ∈ cs, ∀ i ∈ c, i < bs.length) ∧
    ctx.Safe e env ∧ @Context.Safe .unbounded ctx e env := by
  have hd := Expr.ofNode_decoded he
  have hsafe := hd.safe (Config.env_written hc) hctx
  have hacyclic : ctx.reset.run.store.Acyclic := by
    rw [hctx]
    exact Store.acyclic_empty
  obtain ⟨gs, hgs⟩ := hd.formed.groups
  have hcomponents : ∀ bs ∈ gs, ∃ cs, Binding.components bs = .ok cs ∧ ∀ c ∈ cs, ∀ i ∈ c, i < bs.length :=
    fun bs _ => ⟨_, (Binding.classes_spec bs).1, Binding.classes_lt⟩
  exact ⟨hd.formed.walk, hd.formed.copy, hd.formed.printAt false, ⟨gs, hgs, hcomponents⟩, hsafe,
    @Context.Safe.exact .unbounded Traversals.unbounded_exact _ _ _ hsafe hacyclic⟩

end

open Polytype.Yaml in
/-- A plain text. -/
def plainText (value : String) : Node := .scalar ⟨1, 1⟩ .plain "!!str" value

open Polytype.Yaml in
/-- A group of one function with a generic type, called through an alias of its name. -/
def identityNode : Node :=
  .mapping ⟨1, 1⟩ [
    .mk (plainText "group") (.sequence ⟨1, 1⟩ [.mapping ⟨1, 1⟩ [
      .mk (plainText "name") (plainText "f"),
      .mk (plainText "type") (plainText "<A> Function1<A, A>"),
      .mk (plainText "fn") (.sequence ⟨1, 1⟩ [plainText "x: A"]),
      .mk (plainText "body") (plainText "x")]]),
    .mk (plainText "in") (.mapping ⟨1, 1⟩ [
      .mk (plainText "call") (.reference ⟨1, 1⟩ (plainText "f")),
      .mk (plainText "args") (.sequence ⟨1, 1⟩ [plainText "y"])])]

/-- The program that the node describes. -/
def identityExpr : Expr :=
  .group
    [.fn "f" (some ⟨["A"], .function [.con "A" []] (.con "A" [])⟩) [⟨"x", .con "A" []⟩] .absent
      (.var "x" none .absent) .absent]
    (.call (.var "f" none .absent) [.var "y" none .absent] .absent) .absent

theorem ofNode_safe_identity :
    Expr.ofNode identityNode = .ok identityExpr ∧
    Config.env ⟨some false, [("y", "Array<Int>")]⟩ =
      .ok (Env.empty.extend "y" (some (.mono (.array .int)))) ∧
    (∃ s, identityExpr.print = .ok s) ∧
    Context.new.Safe identityExpr (Env.empty.extend "y" (some (.mono (.array .int)))) ∧
    @Context.Safe .unbounded .new identityExpr (Env.empty.extend "y" (some (.mono (.array .int)))) := by
  have he : Expr.ofNode identityNode = .ok identityExpr := by cbv
  have hc : Config.env ⟨some false, [("y", "Array<Int>")]⟩ =
      .ok (Env.empty.extend "y" (some (.mono (.array .int)))) := by cbv
  obtain ⟨_, _, hprint, _, hsafe⟩ := ofNode_safe he hc (rfl : Context.new.reset = .new)
  exact ⟨he, hc, hprint, hsafe⟩

end Polytype
