import Mathlib
import Polytype.Proofs.Infer.Paths
import Polytype.Proofs.Infer.Sessions

/-!
# What a context reports

After a call a context tells the error of the last run and the expression to blame. This is how the call
ended exactly if there was a program (`context_reports_iff`). A call without a program is refused before
the context is cleared: its error is not recorded, and the context goes on to tell about the run before.

One half is about calls that run. A run starts without an error, and keeps it so while it goes on; every
place where it is stopped by an error records that error, and a fault leaves none behind
(`infer_records`). The other half needs that a context never happens to hold the error of a missing
program: no run is stopped by it, in any environment and for any program, well formed or not.
-/

namespace Polytype

open InferM

/-! ## Errors of runs -/

/-- There is no error, and no expression is to blame. -/
def Run.Clean (run : Run) : Prop := run.error = none ∧ run.invalid = .absent

/-- A run that is stopped by an error has recorded it, and it is not that of a missing program. A fault is
not recorded. -/
def Stop.Recorded : Stop → Run → Prop
  | .failed error, run => run.error = some error ∧ error ≠ .emptyExpression
  | .fault _, run => run.Clean

section

variable {root : Expr} {env : Env} {t : Ty} {run run' : Run}

theorem Run.Path.clean (h : run.Path root run') (hc : run.Clean) : run'.Clean :=
  ⟨h.blame.1.trans hc.1, h.blame.2.trans hc.2⟩

theorem refuse_records {error : UnifyError} {x : Expr} (hc : run.Clean) :
    (refuse error x : InferM Unit).Stops Stop.Recorded run :=
  stops_refuse (fun _ _ => hc) fun _ => ⟨rfl, nofun⟩

theorem solve_records (hc : run.Clean) : solve.Stops Stop.Recorded run :=
  stops_solveFor.mpr fun _ _ _ => refuse_records hc

/-- Every node that stops by itself records its error. -/
theorem HaltsAt.recorded {e : Expr} {stop : Stop} (h : HaltsAt env t e run stop run')
    (he : e.PartOf root) (hc : run.Clean) : stop.Recorded run' := by
  cases h with
  | absent => exact ⟨rfl, nofun⟩
  | other => exact ⟨rfl, nofun⟩
  | unbound _ => exact ⟨rfl, nofun⟩
  | untyped _ => exact hc
  | arity _ _ => exact ⟨rfl, nofun⟩
  | typeArgument _ hin _ hstop =>
    have hpath : Run.Path root run _ := .head (.alloc _) hin.path
    refine refuse_records ?_ _ _ hstop
    exact hpath.clean hc
  | missing _ _ _ => exact ⟨rfl, nofun⟩
  | unsolved hg _ hstop =>
    have hpath := hg.path (fun _ _ f _ => infer_path f) (Expr.every_group.mp he).2.1
    refine refuse_records ?_ _ _ hstop
    exact hpath.clean hc
  | ungeneralized hg hs _ =>
    have hpath := hg.path (fun _ _ f _ => infer_path f) (Expr.every_group.mp he).2.1
    exact Run.Path.clean ((hpath.tail (.solve hs)).tail (.note _ _ _)) hc
  | emptyBlock => exact ⟨rfl, nofun⟩

/-- A run without an error that is stopped by one records it. -/
theorem infer_records {e : Expr} (he : e.PartOf root) (hc : run.Clean) :
    (infer env t e).Stops Stop.Recorded run :=
  @infer_stops_of env t run Stop.Recorded (fun _ _ e run => e.PartOf root ∧ run.Clean)
    (fun h hin => ⟨hin.every h.1, (hin.path h.1).clean h.2⟩) (fun h hs => hs.recorded h.1 h.2) e ⟨he, hc⟩

theorem inferRoot_records (hc : run.Clean) : (inferRoot env root).Stops Stop.Recorded run := by
  refine inferRoot_stops_of (infer_records (fun _ hn => hn) hc) fun typed run₁ htyped => ?_
  exact solve_records ((infer_path root (fun _ hn => hn) htyped).clean hc)

theorem inferRoot_clean {r : Expr × Ty} (h : (inferRoot env root).Yields run r run') (hc : run.Clean) :
    run'.Clean := by
  obtain ⟨typed, run₁, htyped, hs, _⟩ := inferRoot_yields.mp h
  have hpath := infer_path root (fun _ hn => hn) htyped
  exact Run.Path.clean (hpath.tail (.solve hs)) hc

end

/-! ## Sessions -/

/-- The error that a call returns. -/
def Outcome.error? {α : Type} (o : Outcome α) : Option InferError :=
  match o.result with
  | .error (.error e) => some e
  | _ => none

namespace Context

variable {α : Type} {c : Context}

/-- A context reports how a call ended: it tells the error that the call returned, and no error and no
expression to blame if there was none. -/
def Reports (answer : Outcome α × Context) : Prop :=
  answer.2.error? = answer.1.error? ∧ (answer.1.error? = none → answer.2.invalid = .absent)

/-- An answer is reported exactly if there is a program. Without one the call is refused, and the context
is what it was. -/
structure ReportsPrograms (c : Context) (root : Expr) (answer : Outcome α × Context) : Prop where
  reports_iff : Reports answer ↔ root ≠ .absent
  refused : root = .absent → answer.1.error? = some .emptyExpression ∧ answer.2 = c

/-- A run that records its errors is reported, and the error of a missing program is not recorded. -/
theorem reports_call {root : Expr} (hr : root.isAbsent = false) {action : InferM α}
    (hs : action.Stops Stop.Recorded c.reset.run)
    (hy : ∀ a run, action.Yields c.reset.run a run → run.Clean) :
    Reports (c.call root action) ∧ (c.call root action).2.error? ≠ some .emptyExpression := by
  rw [call_eq c hr]
  cases ha : action c.reset.run with
  | ok a run =>
    obtain ⟨herror, hinvalid⟩ := hy a run ha
    refine ⟨⟨herror, fun _ => hinvalid⟩, ?_⟩
    show run.error ≠ _
    simp [herror]
  | error stop run =>
    have hstop := hs stop run ha
    cases stop with
    | failed e =>
      refine ⟨⟨hstop.1, nofun⟩, ?_⟩
      show run.error ≠ _
      simp [hstop.1, hstop.2]
    | fault f =>
      refine ⟨⟨hstop.1, fun _ => hstop.2⟩, ?_⟩
      show run.error ≠ _
      simp [hstop.1]

/-- An answer is reported if there is a program, and the error of a missing one is not recorded. -/
def Answers (c : Context) (root : Expr) (answer : Outcome α × Context) : Prop :=
  c.ReportsPrograms root answer ∧ answer.2.error? ≠ some .emptyExpression

theorem answers_call (hn : c.error? ≠ some .emptyExpression) {root : Expr} {action : InferM α}
    (hs : action.Stops Stop.Recorded c.reset.run)
    (hy : ∀ a run, action.Yields c.reset.run a run → run.Clean) :
    c.Answers root (c.call root action) := by
  cases hr : root.isAbsent with
  | true =>
    -- nothing is recorded, and nothing is cleared
    obtain rfl := Expr.isAbsent_iff.mp hr
    exact ⟨⟨⟨fun h => absurd h.1 hn, fun h => absurd rfl h⟩, fun _ => ⟨rfl, rfl⟩⟩, hn⟩
  | false =>
    have hne : root ≠ .absent := by
      rintro rfl
      cases hr
    obtain ⟨hreports, herror⟩ := reports_call hr hs hy
    exact ⟨⟨⟨fun _ => hne, fun _ => hreports⟩, fun h => absurd h hne⟩, herror⟩

/-- What a context is between calls: cleared to the new one, without the error of a missing program. -/
structure Settled (c : Context) : Prop where
  cleared : c.reset = .new
  error? : c.error? ≠ some .emptyExpression

theorem settled_new : new.Settled := by
  refine ⟨rfl, ?_⟩
  show (none : Option InferError) ≠ _
  simp

theorem Settled.calls (h : c.Settled) (root : Expr) (env : Option Env) :
    c.Answers root (c.infer root env) ∧ c.Answers root (c.inferGeneric root env) ∧
      c.Answers root (c.annotate root env) ∧ c.Answers root (c.annotateGeneric root env) := by
  have hclean : c.reset.run.Clean := by
    rw [h.cleared]
    exact ⟨rfl, rfl⟩
  exact calls_of (c.Answers root) (answers_call h.error?) (inferRoot_records hclean)
    (fun r run hr => inferRoot_clean hr hclean)
    (fun t run hrun => stops_close (fun _ _ => hrun) fun _ _ => hrun) (fun _ hrun => hrun)

/-- One request keeps a context settled. -/
theorem Settled.serve (h : c.Settled) (r : Request) : (c.serve r).Settled := by
  refine ⟨reset_serve h.cleared r, ?_⟩
  cases r with
  | infer root env => exact (h.calls root env).1.2
  | inferGeneric root env => exact (h.calls root env).2.1.2
  | annotate root env => exact (h.calls root env).2.2.1.2
  | annotateGeneric root env => exact (h.calls root env).2.2.2.2
  | reset =>
    show c.reset.error? ≠ _
    rw [h.cleared]
    exact settled_new.error?

/-- A session keeps a context settled. -/
theorem Settled.serveAll (h : c.Settled) (history : List Request) : (c.serveAll history).Settled := by
  induction history generalizing c with
  | nil => exact h
  | cons r history ih => exact ih (h.serve r)

end Context

/-- A context reports the outcome of a call exactly if the call has a program. This holds after any
session of calls and resets, for every program and environment, whether the call succeeds or fails. A call
without a program returns an error that the context does not tell: it is left as the last run left it. -/
theorem context_reports_iff (history : List Request) (e : Expr) (env : Option Env) :
    let c := Context.new.serveAll history
    c.ReportsPrograms e (c.infer e env) ∧ c.ReportsPrograms e (c.inferGeneric e env) ∧
      c.ReportsPrograms e (c.annotate e env) ∧ c.ReportsPrograms e (c.annotateGeneric e env) := by
  intro c
  have hc : c.Settled := Context.settled_new.serveAll history
  obtain ⟨hinfer, hgeneric, hannotate, hboth⟩ := hc.calls e env
  exact ⟨hinfer.1, hgeneric.1, hannotate.1, hboth.1⟩

/-- An error that is long over is told again after a call without a program. -/
example :
    let c := Context.new.serveAll [.infer (.var "f" none .absent) none, .infer .absent none]
    c.error? = some (.unbound "f") := by
  decide +kernel

end Polytype
