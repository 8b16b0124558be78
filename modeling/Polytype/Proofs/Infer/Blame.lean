import Mathlib
import Polytype.Proofs.Infer.Paths
import Polytype.Proofs.Infer.Sessions

/-!
# The expression to blame

A run that fails leaves an error and an expression behind. If a step finds the error by itself, the
expression is the node that the step looks at. If two types do not agree, it is the node that the equation
was queued for: a copy with other types, which was built when the equation was queued, perhaps for another
function of a group and long before. Either way it is a node of the program up to its types
(`failure_points_into_program`).

The invariant is that each equation that waits belongs to a node of the program; inference comes to every
part of the program with it (`Blamable.enters`). So the equation that cannot be solved points into the
program, and there is an answer whether it can, since bindings have no cycle.
-/

namespace Polytype

open InferM

/-! ## Nodes of a program -/

/-- An error about a name is an error at a variable of that name. -/
def InferError.Fits : InferError → Expr → Prop
  | unbound name, n => ∃ typeArgs ty, n = .var name typeArgs ty
  | arity name _ _, n => ∃ typeArgs ty, n = .var name typeArgs ty
  | _, _ => True

/-- An error and an expression point to a node of a program: the expression is the node, up to types, and
the error can be an error at that node. -/
def Expr.Explains (x : Expr) (error : InferError) (root : Expr) : Prop :=
  ∃ n, .ok n ∈ root.visits ∧ x.erase = n.erase ∧ error.Fits n

/-- A run is stopped by an error that it records, with an expression that points into a program. -/
def Stop.PointsInto (root : Expr) : Stop → Run → Prop
  | .failed error, run => run.error = some error ∧ run.invalid.Explains error root
  | .fault _, _ => False

namespace Expr

variable {x n root : Expr}

theorem Within.explains_unify (h : x.Within root) (e : UnifyError) : x.Explains (.unify e) root := by
  obtain ⟨n, hn, he⟩ := h
  exact ⟨n, hn, he, trivial⟩

/-- A walk meets no missing expression. -/
theorem every_ne_absent (e : Expr) : e.Every (· ≠ .absent) := by
  induction e with
  | absent => exact every_absent
  | int value ty => exact every_int.mpr nofun
  | str value ty => exact every_str.mpr nofun
  | var name typeArgs ty => exact every_var.mpr nofun
  | func params result body ty ih => exact every_func.mpr ⟨nofun, ih⟩
  | call callee args ty ihf iha => exact every_call.mpr ⟨nofun, ihf, iha⟩
  | letIn name annot value body ty ihv ihb => exact every_letIn.mpr ⟨nofun, ihv, ihb⟩
  | group bindings body ty ihf ihb => exact every_group.mpr ⟨nofun, ihf, ihb⟩
  | array item items ty ih => exact every_array.mpr ⟨nofun, ih⟩
  | seq effect value ty ihe ihv => exact every_seq.mpr ⟨nofun, ihe, ihv⟩
  | block items ty ih => exact every_block.mpr ⟨nofun, ih⟩
  | other kind =>
    intro n hn
    rw [visits, List.mem_singleton] at hn
    cases hn

theorem ne_absent_of_erase_eq (hn : n ≠ .absent) (h : x.erase = n.erase) : x ≠ .absent := by
  rintro rfl
  cases n with
  | absent => exact hn rfl
  | _ => rw [erase, erase] at h; cases h

theorem Within.ne_absent (h : x.Within root) : x ≠ .absent := by
  obtain ⟨n, hn, he⟩ := h
  exact ne_absent_of_erase_eq (root.every_ne_absent n hn) he

theorem Explains.ne_absent {error : InferError} (h : x.Explains error root) : x ≠ .absent := by
  obtain ⟨n, hn, he, _⟩ := h
  exact Within.ne_absent ⟨n, hn, he⟩

end Expr

/-! ## Inference -/

/-- What holds where inference comes to a part of a program. -/
structure Blamable (root : Expr) (env : Env) (e : Expr) (run : Run) : Prop where
  present : env.Present
  formed : e.Formed
  part : e.PartOf root
  acyclic : run.store.Acyclic
  within : run.queue.Within root

section

variable {root : Expr} {env : Env} {t : Ty} {e : Expr} {run run' : Run}

theorem Blamable.enters {env' : Env} {t' : Ty} {e' : Expr} (h : Blamable root env e run)
    (hin : Enters env t e run env' t' e' run') : Blamable root env' e' run' where
  present := hin.present h.present
  formed := hin.formed h.formed
  part := hin.every h.part
  acyclic := (hin.path h.part).acyclic h.acyclic
  within := (hin.path h.part).within h.within

/-- An error at a node points to the node. -/
theorem Stop.pointsInto_failing (run : Run) {n : Expr} (hn : .ok n ∈ root.visits) (error : InferError)
    (hfits : error.Fits n) : Stop.PointsInto root (.failed error) (run.failing error n) :=
  ⟨rfl, n, hn, rfl, hfits⟩

/-- Types that were not unified for a node point to the node. -/
theorem refuse_pointsInto {error : UnifyError} {x : Expr} (hx : x.Within root)
    (he : ∀ f, error ≠ .broken f) : (refuse error x : InferM Unit).Stops (Stop.PointsInto root) run :=
  stops_refuse (fun f hf => absurd hf (he f)) fun _ => ⟨rfl, hx.explains_unify error⟩

/-- The equation that cannot be solved was one of those that waited, and belongs to a node. -/
theorem solveList_pointsInto {error : UnifyError} {x other : Expr} (hs : run.store.Acyclic)
    (hq : run.queue.Within root)
    (h : (Queue.solveList run.store run.queue.toList).2 = some (error, x)) :
    (refuse error (if x.isAbsent then other else x) : InferM Unit).Stops (Stop.PointsInto root)
      (run.withStore (Queue.solveList run.store run.queue.toList).1) := by
  obtain ⟨before, c, after, hcs, rfl, _, hfails, _⟩ := Queue.solveList_stops h
  have hc : c.expr.Within root := hq c (by simp [hcs])
  have hpresent : c.expr.isAbsent = false := by
    rw [Bool.eq_false_iff, ne_eq, Expr.isAbsent_iff]
    exact Expr.Within.ne_absent hc
  rw [hpresent]
  refine refuse_pointsInto hc fun f hf => ?_
  exact Store.unify_ne_broken (Queue.solveList_acyclic hs before).2 _ _ f (hf ▸ hfails)

/-- Where the invariant holds, a node that stops points into the program. -/
theorem Blamable.haltsAt {stop : Stop} (h : Blamable root env e run)
    (hs : HaltsAt env t e run stop run') : stop.PointsInto root run' := by
  obtain ⟨hp, hf, hpart, hacyclic, hwithin⟩ := h
  cases hs with
  | absent => cases hf
  | other => cases hf
  | unbound hl => exact Stop.pointsInto_failing _ (Expr.every_var.mp hpart) _ ⟨_, _, rfl⟩
  | untyped hl => exact hp _ hl
  | arity hl hlen => exact Stop.pointsInto_failing _ (Expr.every_var.mp hpart) _ ⟨_, _, rfl⟩
  | typeArgument hl hin he hstop =>
    have hpath : Run.Path root run _ := .head (.alloc _) hin.path
    refine refuse_pointsInto ⟨_, Expr.every_var.mp hpart, rfl⟩ (fun f hf => ?_) _ _ hstop
    exact Store.unify_ne_broken (hpath.acyclic hacyclic) _ _ f (hf ▸ he)
  | missing hplaced hin hb =>
    cases hf with
    | group hfn _ _ =>
      have hsome := hfn _ hin.mem
      rw [hb] at hsome
      cases hsome
  | unsolved hg he hstop =>
    have hpath := hg.path (fun _ _ f _ => infer_path f) (Expr.every_group.mp hpart).2.1
    exact solveList_pointsInto (hpath.acyclic hacyclic) (hpath.within hwithin) he _ _ hstop
  | ungeneralized _ _ hpres => exact hpres hp
  | emptyBlock => exact Stop.pointsInto_failing _ (Expr.every_block.mp hpart).1 _ trivial

/-- In a well-formed program every equation is queued for a node that is complete but for its types, and
every other error is found at a node of the program. -/
theorem infer_pointsInto (h : Blamable root env e run) :
    (infer env t e).Stops (Stop.PointsInto root) run :=
  @infer_stops_of env t run (Stop.PointsInto root) (fun env _ e run => Blamable root env e run)
    Blamable.enters Blamable.haltsAt e h

theorem inferRoot_pointsInto (he : root.Formed) (hp : env.Present) :
    (inferRoot env root).Stops (Stop.PointsInto root) .start := by
  have hstart : Blamable root env root (Run.start.alloc 1) :=
    ⟨hp, he, fun _ hn => hn, (Run.wf_start .whole).acyclic.freshList 1, by simp [Queue.Within, Run.start]⟩
  refine inferRoot_stops_of (infer_pointsInto hstart) fun typed run₁ htyped => ?_
  have hpath := infer_path root hstart.part htyped
  refine stops_solveFor.mpr fun e x => ?_
  exact solveList_pointsInto (hpath.acyclic hstart.acyclic) (hpath.within hstart.within)

end

/-! ## Calls -/

/-- A call that fails has an error, not a fault, and leaves the error behind with an expression that
points into the program. -/
def Context.PointsInto {α : Type} (answer : Outcome α × Context) (root : Expr) : Prop :=
  ∀ trouble, answer.1.result = .error trouble → ∃ error, trouble = .error error ∧
    answer.2.error? = some error ∧ answer.2.invalid ≠ .absent ∧
    answer.2.invalid.Explains error root

theorem Context.call_pointsInto {α : Type} {c : Context} {root : Expr} {action : InferM α}
    (hr : root.isAbsent = false) (h : action.Stops (Stop.PointsInto root) c.reset.run) :
    Context.PointsInto (c.call root action) root := by
  intro trouble ht
  rw [Context.call_eq c hr] at ht ⊢
  cases ha : action c.reset.run with
  | ok a run =>
    rw [ha] at ht
    cases ht
  | error stop run =>
    have hstop := h stop run ha
    rw [ha] at ht
    cases stop with
    | failed error =>
      cases ht
      exact ⟨error, rfl, hstop.1, hstop.2.ne_absent, hstop.2⟩
    | fault f => exact absurd hstop id

/-- Failures point into the program. After any session, if a call for a well-formed program fails in an
environment that binds no name to no type, then the context tells the error of the call and an expression
to blame, which is there and is a node of the program up to types; for an unbound name or a wrong number
of type arguments the node is a variable of that name. -/
theorem failure_points_into_program (history : List Request) {e : Expr} {env : Option Env}
    (he : e.Formed) (hp : (env.getD .empty).Present) :
    let c := Context.new.serveAll history
    Context.PointsInto (c.infer e env) e ∧ Context.PointsInto (c.inferGeneric e env) e ∧
      Context.PointsInto (c.annotate e env) e ∧ Context.PointsInto (c.annotateGeneric e env) e := by
  intro c
  have hc : c.reset = .new := Context.reset_serveAll rfl history
  refine @Context.calls_of _ (fun _ => True) _ _ _ (fun answer => Context.PointsInto answer e)
    (fun h _ => Context.call_pointsInto he.isAbsent h) ?_ (fun _ _ _ => trivial) (fun t run _ => ?_)
    (fun _ _ => trivial)
  · rw [hc]
    exact inferRoot_pointsInto he hp
  · exact close_stops ⟨[], rfl⟩ fun f hpres => hpres hp

/-- Two functions, of which the first gives the second a number in place of a text. -/
def misapplied : Expr :=
  .group [.fn "f" none [⟨"x", .absent⟩] .absent
      (.call (.var "g" none .absent) [.int 1 .absent] .absent) .absent,
    .fn "g" none [⟨"y", .string⟩] .absent (.var "y" none .absent) .absent]
    (.var "f" none .absent) .absent

theorem misapplied_formed : misapplied.Formed := by
  refine .group (by simp [Binding.func?]) ?_ (.var _ _ _)
  simp only [List.mem_cons, List.not_mem_nil, or_false, forall_eq_or_imp, forall_eq]
  constructor
  · rintro _ ⟨⟩
    exact .func (.call (.var _ _ _) (by simpa using .int _ _))
  · rintro _ ⟨⟩
    exact .func (.var _ _ _)

/-- The second function is blamed for the mistake of the first, whatever went wrong before. -/
theorem misapplied_points_into_program :
    let c := Context.new.serveAll [.infer (.var "h" none .absent) none]
    misapplied.Formed ∧ c.error? = some (.unbound "h") ∧
      (c.infer misapplied none).1.result = .error (.error (.unify (.mismatch .int .string))) ∧
      (c.infer misapplied none).2.invalid.Explains (.unify (.mismatch .int .string)) misapplied := by
  intro c
  have herror : c.error? = some (.unbound "h") := by decide +kernel
  have hresult : (c.infer misapplied none).1.result =
      .error (.error (.unify (.mismatch .int .string))) := by decide +kernel
  have hpoints : Context.PointsInto (c.infer misapplied none) misapplied :=
    (@failure_points_into_program [.infer (.var "h" none .absent) none] _ none misapplied_formed
      fun x => by simp).1
  clear_value c
  obtain ⟨error, heq, _, _, hx⟩ := hpoints _ hresult
  cases heq
  exact ⟨misapplied_formed, herror, hresult, hx⟩

end Polytype
