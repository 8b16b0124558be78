import Mathlib
import Polytype.Infer.Context
import Polytype.Proofs.Expr.MapTypes
import Polytype.Proofs.Infer.Generalization
import Polytype.Proofs.Ty.Instance

/-!
# Steps of inference

`m.Yields run a run'` says that a step ends well, with a value and a new state. There is one lemma for
each operation that steps are composed of, and one for each form of expression, that says exactly when
it yields what. The proofs about inference use these lemmas and never look inside `infer`. Whatever is
inferred is well formed (`infer_formed`), so that generalisation can walk and retype it.
-/

namespace Polytype

/-! ## Changes of the state -/

namespace Run

/-- New variables. -/
def alloc (run : Run) (count : Nat) : Run :=
  { run with store := (Store.freshList count run.store).2 }

/-- A constraint is queued. -/
def emit (run : Run) (expected actual : Ty) (expr : Expr) : Run :=
  { run with queue := run.queue.emit expected actual expr }

/-- Another store. -/
def withStore (run : Run) (store : Store) : Run := { run with store }

/-- All constraints are solved. -/
def solved (run : Run) (store : Store) : Run := { run with store, queue := #[] }

/-- Another log. -/
def withLog (run : Run) (log : Array Event) : Run := { run with log }

/-- Another log and another supply of names. -/
def withNotes (run : Run) (notes : Array Event × NameSupply) : Run :=
  { run with log := notes.1, names := notes.2 }

/-- A type has been closed, for which names may have been taken. -/
def closed (run : Run) (env : Env) (t : Ty) (scope : Expr) : Run :=
  { run with
    names := ((closeOver run.store run.names env t scope).toOption.map (·.2.2)).getD run.names }

@[simp] theorem store_alloc (run : Run) (n : Nat) :
    (run.alloc n).store = (Store.freshList n run.store).2 := rfl

@[simp] theorem queue_alloc (run : Run) (n : Nat) : (run.alloc n).queue = run.queue := rfl

@[simp] theorem store_emit (run : Run) (a b : Ty) (e : Expr) : (run.emit a b e).store = run.store :=
  rfl

@[simp] theorem store_withStore (run : Run) (s : Store) : (run.withStore s).store = s := rfl

@[simp] theorem queue_withStore (run : Run) (s : Store) : (run.withStore s).queue = run.queue := rfl

@[simp] theorem store_solved (run : Run) (s : Store) : (run.solved s).store = s := rfl

@[simp] theorem queue_solved (run : Run) (s : Store) : (run.solved s).queue = #[] := rfl

@[simp] theorem store_withLog (run : Run) (log : Array Event) :
    (run.withLog log).store = run.store := rfl

@[simp] theorem queue_withLog (run : Run) (log : Array Event) :
    (run.withLog log).queue = run.queue := rfl

@[simp] theorem store_withNotes (run : Run) (notes : Array Event × NameSupply) :
    (run.withNotes notes).store = run.store := rfl

@[simp] theorem queue_withNotes (run : Run) (notes : Array Event × NameSupply) :
    (run.withNotes notes).queue = run.queue := rfl

@[simp] theorem alloc_zero (run : Run) : run.alloc 0 = run := rfl

end Run

/-- An instance takes a new variable for each parameter. -/
theorem Scheme.instantiate_eq (g : Scheme) (s : Store) :
    g.instantiate s =
      ((g.apply (Store.freshList g.params.length s).1, (Store.freshList g.params.length s).1),
        (Store.freshList g.params.length s).2) := by
  rw [instantiate]
  cases hp : g.params with
  | nil =>
    have happly : g.apply [] = g.body := Ty.replace_eq_self fun _ _ => by rw [hp]; rfl
    simp [Store.freshList, happly]
  | cons p ps => simp [apply, hp]

namespace InferM

/-! ## Operations -/

/-- A step ends well with a value and a state. -/
def Yields {α : Type} (m : InferM α) (run : Run) (a : α) (run' : Run) : Prop := m run = .ok a run'

section

variable {α β : Type} {run run' : Run}

theorem Yields.unique {m : InferM α} {a b : α} {run₁ : Run} (h : m.Yields run a run')
    (h' : m.Yields run b run₁) : a = b ∧ run' = run₁ := by
  cases h.symm.trans h'
  exact ⟨rfl, rfl⟩

theorem yields_bind {m : InferM α} {f : α → InferM β} {b : β} :
    (m >>= f).Yields run b run' ↔
      ∃ a run₁, m.Yields run a run₁ ∧ (f a).Yields run₁ b run' := by
  show EStateM.bind m f run = _ ↔ _
  rw [EStateM.bind]
  unfold Yields
  cases m run with
  | ok a run₁ => simp
  | error e run₁ => simp

theorem yields_pure {a b : α} : (pure a : InferM α).Yields run b run' ↔ b = a ∧ run' = run := by
  show EStateM.Result.ok a run = _ ↔ _
  simp [eq_comm]

theorem yields_map {m : InferM α} {f : α → β} {b : β} :
    (f <$> m).Yields run b run' ↔ ∃ a, m.Yields run a run' ∧ b = f a := by
  rw [map_eq_pure_bind, yields_bind]
  simp only [yields_pure]
  constructor
  · rintro ⟨a, run₁, hm, rfl, rfl⟩
    exact ⟨a, hm, rfl⟩
  · rintro ⟨a, hm, rfl⟩
    exact ⟨a, run', hm, rfl, rfl⟩

@[simp] theorem not_yields_throw {e : Stop} {a : α} : ¬ (throw e : InferM α).Yields run a run' := by
  intro h
  cases h

@[simp] theorem not_yields_fail {e : InferError} {x : Expr} {a : α} :
    ¬ (fail e x : InferM α).Yields run a run' := by
  intro h
  cases h

@[simp] theorem not_yields_refuse {e : UnifyError} {x : Expr} {a : α} :
    ¬ (refuse e x : InferM α).Yields run a run' := by
  intro h
  cases e <;> cases h

theorem yields_lift {x : Except Fault α} {a : α} :
    (lift x).Yields run a run' ↔ x = .ok a ∧ run' = run := by
  cases x with
  | error f => simp [lift]
  | ok b => simp [lift, yields_pure, eq_comm]

theorem get_bind_run {f : Run → InferM α} (run : Run) : (get >>= f) run = f run run := rfl

theorem yields_get_bind {f : Run → InferM α} {a : α} :
    ((get : InferM Run) >>= f).Yields run a run' ↔ (f run).Yields run a run' := Iff.rfl

theorem yields_modify {f : Run → Run} {u : Unit} :
    (modify f : InferM Unit).Yields run u run' ↔ run' = f run := by
  show EStateM.Result.ok () (f run) = _ ↔ _
  simp [eq_comm]

theorem yields_fresh {t : Ty} :
    fresh.Yields run t run' ↔ t = .var run.store.size ∧ run' = run.alloc 1 := by
  show EStateM.Result.ok (Ty.var run.store.size) (run.alloc 1) = _ ↔ _
  simp [eq_comm]

theorem yields_freshList {n : Nat} {ts : List Ty} :
    (freshList n).Yields run ts run' ↔ ts = (Store.freshList n run.store).1 ∧ run' = run.alloc n := by
  show EStateM.Result.ok (Store.freshList n run.store).1 (run.alloc n) = _ ↔ _
  simp [eq_comm]

theorem yields_orFresh {a t : Ty} :
    (orFresh a).Yields run t run' ↔
      (a = .absent ∧ t = .var run.store.size ∧ run' = run.alloc 1) ∨
        (a ≠ .absent ∧ t = a ∧ run' = run) := by
  cases a with
  | absent => simp [orFresh, yields_fresh]
  | var i => simp [orFresh, yields_pure]
  | con n as => simp [orFresh, yields_pure]

theorem yields_emit {a b : Ty} {e : Expr} {u : Unit} :
    (InferM.emit a b e).Yields run u run' ↔ run' = run.emit a b e :=
  yields_modify

theorem yields_report {e : Event} {u : Unit} :
    (report e).Yields run u run' ↔ run' = run.withLog (run.log.push e) :=
  yields_modify

theorem yields_unify {a b : Ty} {x : Expr} {u : Unit} :
    (InferM.unify a b x).Yields run u run' ↔
      (run.store.unify a b).2 = none ∧ run' = run.withStore (run.store.unify a b).1 := by
  rw [InferM.unify, yields_get_bind]
  show _ ↔ (Traversals.unify run.store a b).2 = none ∧
    run' = run.withStore (Traversals.unify run.store a b).1
  generalize Traversals.unify run.store a b = r
  obtain ⟨s, e⟩ := r
  cases e with
  | none =>
    show Yields (pure ()) (run.withStore s) u run' ↔ _
    simp [yields_pure]
  | some e =>
    show Yields (refuse e x) (run.withStore s) u run' ↔ _
    simp

/-- Equations that can be solved are solved whoever is to blame. -/
theorem yields_solveFor {x : Expr} {u : Unit} :
    (solveFor x).Yields run u run' ↔ (Queue.solveList run.store run.queue.toList).2 = none ∧
      run' = run.solved (Queue.solveList run.store run.queue.toList).1 := by
  rw [solveFor, yields_get_bind, Queue.solve]
  generalize Queue.solveList run.store run.queue.toList = r
  obtain ⟨s, e⟩ := r
  cases e with
  | none =>
    show Yields (pure ()) (run.solved s) u run' ↔ _
    simp [yields_pure]
  | some e =>
    show Yields (refuse e.1 (if e.2.isAbsent then x else e.2)) (run.withStore s) u run' ↔ _
    simp

theorem yields_solve {u : Unit} :
    solve.Yields run u run' ↔ (Queue.solveList run.store run.queue.toList).2 = none ∧
      run' = run.solved (Queue.solveList run.store run.queue.toList).1 :=
  yields_solveFor

theorem yields_instantiate {g : Scheme} {r : Ty × List Ty} :
    (instantiate g).Yields run r run' ↔
      r = (g.apply (Store.freshList g.params.length run.store).1,
        (Store.freshList g.params.length run.store).1) ∧ run' = run.alloc g.params.length := by
  show EStateM.Result.ok (g.instantiate run.store).1 { run with store := (g.instantiate run.store).2 } = _ ↔ _
  rw [Scheme.instantiate_eq]
  simp [eq_comm, Run.alloc]

/-- Closing a type takes a walk through the scope if there are parameters. -/
theorem yields_close {env : Env} {t : Ty} {scope : Expr} {r : Scheme × Option Store} :
    (close env t scope).Yields run r run' ↔ closing run.store env t scope = .ok r ∧
      (r.2.isSome = true → ∃ ns, scope.walk = .ok ns) ∧ run' = run.closed env t scope := by
  rw [close, yields_get_bind, ← closing_eq run.names, Run.closed]
  cases closeOver run.store run.names env t scope with
  | error f => simp [lift, yields_bind, Except.map]
  | ok r' =>
    obtain ⟨g, named, names⟩ := r'
    have hend : (EStateM.Result.ok (g, named) { run with names } : EStateM.Result Stop _ _) = .ok r run' ↔
        Except.ok (g, named) = (.ok r : Except Fault _) ∧ run' = { run with names } := by
      simp [eq_comm]
    cases named with
    | none =>
      refine hend.trans (and_congr_right fun h => ?_)
      cases h
      simp [Except.toOption]
    | some store =>
      cases hw : scope.walk with
      | ok ns =>
        refine Iff.trans ?_ (hend.trans (and_congr_right fun _ => ?_))
        · exact Iff.rfl
        · simp [Except.toOption]
      | error f =>
        refine iff_of_false ?_ ?_
        · rintro ⟨⟩
        · rintro ⟨h, hwalk, _⟩
          cases h
          obtain ⟨_, ⟨⟩⟩ := hwalk rfl

/-- A node that needs an equation with the type expected of it. -/
theorem yields_emit_pure {a b : Ty} {e e' : Expr} :
    Yields (do InferM.emit a b e; return e) run e' run' ↔ e' = e ∧ run' = run.emit a b e := by
  simp only [yields_bind, yields_emit, yields_pure]
  constructor
  · rintro ⟨_, _, rfl, rfl, rfl⟩
    exact ⟨rfl, rfl⟩
  · rintro ⟨rfl, rfl⟩
    exact ⟨(), _, rfl, rfl, rfl⟩

end

end InferM

open InferM

section

variable {env : Env} {expected : Ty} {run run' : Run} {e' : Expr}

/-! ## Literals -/

theorem infer_int {value : Int64} {ty : Ty} :
    (infer env expected (.int value ty)).Yields run e' run' ↔
      e' = .int value expected ∧ run' = run.emit expected .int (.int value expected) := by
  rw [infer]
  exact yields_emit_pure

example : (infer .empty (.var 0) (.int 3 .absent)).Yields .start (.int 3 (.var 0))
    (Run.start.emit (.var 0) .int (.int 3 (.var 0))) := by
  rw [infer]
  rfl

/-! ## Parameters and type arguments -/

theorem unifyTypeArgs_nil {invalid : Expr} {vs : List Ty} {u : Unit} :
    (unifyTypeArgs invalid [] vs).Yields run u run' ↔ run' = run := by
  rw [unifyTypeArgs]
  simp [yields_pure]

theorem unifyTypeArgs_cons {invalid : Expr} {a v : Ty} {as vs : List Ty} {u : Unit} :
    (unifyTypeArgs invalid (a :: as) (v :: vs)).Yields run u run' ↔
      (run.store.unify a v).2 = none ∧
        (unifyTypeArgs invalid as vs).Yields (run.withStore (run.store.unify a v).1) u run' := by
  rw [unifyTypeArgs]
  simp only [yields_bind, yields_unify]
  constructor
  · rintro ⟨_, _, ⟨hu, rfl⟩, h⟩
    exact ⟨hu, h⟩
  · rintro ⟨hu, h⟩
    exact ⟨(), _, ⟨hu, rfl⟩, h⟩

theorem openParams_nil {r : List Param × Env} :
    (openParams env []).Yields run r run' ↔ r = ([], env) ∧ run' = run := by
  rw [openParams, yields_pure]

theorem openParams_cons {p : Param} {ps : List Param} {r : List Param × Env} :
    (openParams env (p :: ps)).Yields run r run' ↔
      ∃ t run₁ qs inner, (orFresh p.ty).Yields run t run₁ ∧
        (openParams (env.declare p.name t) ps).Yields run₁ (qs, inner) run' ∧
        r = (⟨p.name, t⟩ :: qs, inner) := by
  rw [openParams]
  simp only [yields_bind, yields_pure]
  constructor
  · rintro ⟨t, run₁, ht, ⟨qs, inner⟩, run₂, hr, rfl, rfl⟩
    exact ⟨t, run₁, qs, inner, ht, hr, rfl⟩
  · rintro ⟨t, run₁, qs, inner, ht, hr, rfl⟩
    exact ⟨t, run₁, ht, ⟨qs, inner⟩, _, hr, rfl, rfl⟩

/-! ## Expressions -/

theorem infer_str {value : String} {ty : Ty} :
    (infer env expected (.str value ty)).Yields run e' run' ↔
      e' = .str value expected ∧ run' = run.emit expected .string (.str value expected) := by
  rw [infer]
  exact yields_emit_pure

theorem infer_var {name : String} {typeArgs : Option (List Ty)} {ty : Ty} :
    (infer env expected (.var name typeArgs ty)).Yields run e' run' ↔
      ∃ g run₁, env.lookup? name = some (some g) ∧
        (∀ args, typeArgs = some args → args.length = g.params.length) ∧
        (unifyTypeArgs (.var name typeArgs ty) (typeArgs.getD [])
          (Store.freshList g.params.length run.store).1).Yields (run.alloc g.params.length) () run₁ ∧
        e' = .var name typeArgs expected ∧
        run' = run₁.emit expected (g.apply (Store.freshList g.params.length run.store).1)
          (.var name typeArgs expected) := by
  rw [infer]
  cases hl : env.lookup? name with
  | none => simp
  | some o =>
    cases o with
    | none => simp
    | some g =>
      simp only [yields_bind, yields_instantiate]
      constructor
      · rintro ⟨_, _, ⟨rfl, rfl⟩, h⟩
        cases typeArgs with
        | none =>
          obtain ⟨rfl, rfl⟩ := yields_emit_pure.mp h
          exact ⟨g, _, rfl, by simp, unifyTypeArgs_nil.mpr rfl, rfl, rfl⟩
        | some args =>
          by_cases hlen : args.length = g.params.length
          · simp only [hlen, bne_self_eq_false, Bool.false_eq_true, if_false] at h
            obtain ⟨_, run₁, hu, h⟩ := yields_bind.mp h
            obtain ⟨rfl, rfl⟩ := yields_emit_pure.mp h
            exact ⟨g, run₁, rfl, by rintro _ ⟨rfl⟩; exact hlen, hu, rfl, rfl⟩
          · simp only [bne_iff_ne, ne_eq, hlen, not_false_eq_true, if_true] at h
            obtain ⟨_, _, hf, _⟩ := yields_bind.mp h
            exact absurd hf not_yields_fail
      · rintro ⟨_, run₁, ⟨rfl⟩, hlen, hu, rfl, rfl⟩
        refine ⟨_, _, ⟨rfl, rfl⟩, ?_⟩
        cases typeArgs with
        | none =>
          obtain rfl := unifyTypeArgs_nil.mp hu
          exact yields_emit_pure.mpr ⟨rfl, rfl⟩
        | some args =>
          simp only [hlen args rfl, bne_self_eq_false, Bool.false_eq_true, if_false]
          exact yields_bind.mpr ⟨(), run₁, hu, yields_emit_pure.mpr ⟨rfl, rfl⟩⟩

theorem infer_func {params : List Param} {result : Ty} {body : Expr} {ty : Ty} :
    (infer env expected (.func params result body ty)).Yields run e' run' ↔
      ∃ ps inner run₁ r run₂ b run₃, (openParams env params).Yields run (ps, inner) run₁ ∧
        (orFresh result).Yields run₁ r run₂ ∧ (infer inner r body).Yields run₂ b run₃ ∧
        e' = .func ps r b expected ∧
        run' = run₃.emit expected (.function (ps.map (·.ty)) r) (.func ps r b expected) := by
  rw [infer]
  simp only [yields_bind, closeFunc]
  constructor
  · rintro ⟨⟨ps, inner⟩, run₁, hp, r, run₂, hr, b, run₃, hb, h⟩
    obtain ⟨rfl, rfl⟩ := yields_emit_pure.mp (yields_bind.mpr h)
    exact ⟨ps, inner, run₁, r, run₂, b, run₃, hp, hr, hb, rfl, rfl⟩
  · rintro ⟨ps, inner, run₁, r, run₂, b, run₃, hp, hr, hb, rfl, rfl⟩
    exact ⟨⟨ps, inner⟩, run₁, hp, r, run₂, hr, b, run₃, hb,
      yields_bind.mp (yields_emit_pure.mpr ⟨rfl, rfl⟩)⟩

theorem infer_call {callee : Expr} {args : List Expr} {ty : Ty} :
    (infer env expected (.call callee args ty)).Yields run e' run' ↔
      ∃ f run₁ es, (infer env (.function (Store.freshList args.length run.store).1 expected)
          callee).Yields (run.alloc args.length) f run₁ ∧
        (inferEach env (Store.freshList args.length run.store).1 args).Yields run₁ es run' ∧
        e' = .call f es expected := by
  rw [infer]
  simp only [yields_bind, yields_freshList, yields_pure]
  constructor
  · rintro ⟨_, _, ⟨rfl, rfl⟩, f, run₁, hf, es, _, hes, rfl, rfl⟩
    exact ⟨f, run₁, es, hf, hes, rfl⟩
  · rintro ⟨f, run₁, es, hf, hes, rfl⟩
    exact ⟨_, _, ⟨rfl, rfl⟩, f, run₁, hf, es, _, hes, rfl, rfl⟩

theorem infer_let_alone {name : String} {annot : Ty} {value : Expr} {ty : Ty} :
    (infer env expected (.letIn name annot value .absent ty)).Yields run e' run' ↔
      ∃ a run₁ v run₂, (orFresh annot).Yields run a run₁ ∧ (infer env a value).Yields run₁ v run₂ ∧
        e' = .letIn name a v .absent expected ∧
        run' = run₂.emit expected a (.letIn name a v .absent expected) := by
  rw [infer]
  simp only [yields_bind, Expr.isAbsent, if_true]
  constructor
  · rintro ⟨a, run₁, ha, v, run₂, hv, h⟩
    obtain ⟨rfl, rfl⟩ := yields_emit_pure.mp (yields_bind.mpr h)
    exact ⟨a, run₁, v, run₂, ha, hv, rfl, rfl⟩
  · rintro ⟨a, run₁, v, run₂, ha, hv, rfl, rfl⟩
    exact ⟨a, run₁, ha, v, run₂, hv, yields_bind.mp (yields_emit_pure.mpr ⟨rfl, rfl⟩)⟩

theorem infer_let {name : String} {annot : Ty} {value body : Expr} {ty : Ty}
    (hb : body.isAbsent = false) :
    (infer env expected (.letIn name annot value body ty)).Yields run e' run' ↔
      ∃ a run₁ v run₂ b, (orFresh annot).Yields run a run₁ ∧ (infer env a value).Yields run₁ v run₂ ∧
        (infer (env.declare name a) expected body).Yields run₂ b run' ∧
        e' = .letIn name a v b expected := by
  rw [infer]
  simp only [yields_bind, hb, Bool.false_eq_true, if_false, yields_pure]
  constructor
  · rintro ⟨a, run₁, ha, v, run₂, hv, b, _, hb, rfl, rfl⟩
    exact ⟨a, run₁, v, run₂, b, ha, hv, hb, rfl⟩
  · rintro ⟨a, run₁, v, run₂, b, ha, hv, hb, rfl⟩
    exact ⟨a, run₁, ha, v, run₂, hv, b, _, hb, rfl, rfl⟩

theorem infer_array {item : Ty} {items : List Expr} {ty : Ty} :
    (infer env expected (.array item items ty)).Yields run e' run' ↔
      ∃ a run₁ es run₂, (orFresh item).Yields run a run₁ ∧
        (inferAll env a items).Yields run₁ es run₂ ∧ e' = .array a es expected ∧
        run' = run₂.emit expected (.array a) (.array a es expected) := by
  rw [infer]
  simp only [yields_bind]
  constructor
  · rintro ⟨a, run₁, ha, es, run₂, hes, h⟩
    obtain ⟨rfl, rfl⟩ := yields_emit_pure.mp (yields_bind.mpr h)
    exact ⟨a, run₁, es, run₂, ha, hes, rfl, rfl⟩
  · rintro ⟨a, run₁, es, run₂, ha, hes, rfl, rfl⟩
    exact ⟨a, run₁, ha, es, run₂, hes, yields_bind.mp (yields_emit_pure.mpr ⟨rfl, rfl⟩)⟩

theorem infer_seq {effect value : Expr} {ty : Ty} :
    (infer env expected (.seq effect value ty)).Yields run e' run' ↔
      ∃ d run₁ v, (infer env (.var run.store.size) effect).Yields (run.alloc 1) d run₁ ∧
        (infer env expected value).Yields run₁ v run' ∧ e' = .seq d v expected := by
  rw [infer]
  simp only [yields_bind, yields_fresh, yields_pure]
  constructor
  · rintro ⟨_, _, ⟨rfl, rfl⟩, d, run₁, hd, v, _, hv, rfl, rfl⟩
    exact ⟨d, run₁, v, hd, hv, rfl⟩
  · rintro ⟨d, run₁, v, hd, hv, rfl⟩
    exact ⟨_, _, ⟨rfl, rfl⟩, d, run₁, hd, v, _, hv, rfl, rfl⟩

theorem infer_block {items : List Expr} {ty : Ty} :
    (infer env expected (.block items ty)).Yields run e' run' ↔
      items ≠ [] ∧ ∃ es, (inferItems env expected items).Yields run es run' ∧
        e' = .block es expected := by
  rw [infer]
  cases items with
  | nil =>
    simp only [List.isEmpty_nil, if_true, ne_eq, not_true_eq_false, false_and, iff_false]
    intro h
    obtain ⟨_, _, hf, _⟩ := yields_bind.mp h
    exact not_yields_fail hf
  | cons e es =>
    simp only [List.isEmpty_cons, Bool.false_eq_true, if_false, yields_bind, yields_pure]
    constructor
    · rintro ⟨es, _, hes, rfl, rfl⟩
      exact ⟨by simp, es, hes, rfl⟩
    · rintro ⟨_, es, hes, rfl⟩
      exact ⟨es, _, hes, rfl, rfl⟩

theorem not_infer_absent : ¬ (infer env expected .absent).Yields run e' run' := by
  rw [infer]
  exact not_yields_fail

theorem not_infer_other {kind : String} :
    ¬ (infer env expected (.other kind)).Yields run e' run' := by
  rw [infer]
  exact not_yields_fail

/-! ## Lists -/

theorem inferAll_nil {es : List Expr} :
    (inferAll env expected []).Yields run es run' ↔ es = [] ∧ run' = run := by
  rw [inferAll, yields_pure]

theorem inferAll_cons {e : Expr} {es es' : List Expr} :
    (inferAll env expected (e :: es)).Yields run es' run' ↔
      ∃ d run₁ ds, (infer env expected e).Yields run d run₁ ∧
        (inferAll env expected es).Yields run₁ ds run' ∧ es' = d :: ds := by
  rw [inferAll]
  simp only [yields_bind, yields_pure]
  constructor
  · rintro ⟨d, run₁, hd, ds, _, hds, rfl, rfl⟩
    exact ⟨d, run₁, ds, hd, hds, rfl⟩
  · rintro ⟨d, run₁, ds, hd, hds, rfl⟩
    exact ⟨d, run₁, hd, ds, _, hds, rfl, rfl⟩

theorem inferEach_nil {ts : List Ty} {es : List Expr} :
    (inferEach env ts []).Yields run es run' ↔ es = [] ∧ run' = run := by
  rw [inferEach, yields_pure]

theorem inferEach_cons {t : Ty} {ts : List Ty} {e : Expr} {es es' : List Expr} :
    (inferEach env (t :: ts) (e :: es)).Yields run es' run' ↔
      ∃ d run₁ ds, (infer env t e).Yields run d run₁ ∧
        (inferEach env ts es).Yields run₁ ds run' ∧ es' = d :: ds := by
  rw [inferEach]
  simp only [yields_bind, yields_pure]
  constructor
  · rintro ⟨d, run₁, hd, ds, _, hds, rfl, rfl⟩
    exact ⟨d, run₁, ds, hd, hds, rfl⟩
  · rintro ⟨d, run₁, ds, hd, hds, rfl⟩
    exact ⟨d, run₁, hd, ds, _, hds, rfl, rfl⟩

theorem inferItems_last {e : Expr} {es' : List Expr} :
    (inferItems env expected [e]).Yields run es' run' ↔
      ∃ d, (infer env expected e).Yields run d run' ∧ es' = [d] := by
  rw [inferItems]
  simp only [yields_bind, yields_pure]
  constructor
  · rintro ⟨d, _, hd, rfl, rfl⟩
    exact ⟨d, hd, rfl⟩
  · rintro ⟨d, hd, rfl⟩
    exact ⟨d, _, hd, rfl, rfl⟩

theorem inferItems_cons {e f : Expr} {es es' : List Expr} :
    (inferItems env expected (e :: f :: es)).Yields run es' run' ↔
      ∃ d run₁ ds, (infer env (.var run.store.size) e).Yields (run.alloc 1) d run₁ ∧
        (inferItems (env.after d) expected (f :: es)).Yields run₁ ds run' ∧ es' = d :: ds := by
  rw [inferItems]
  · simp only [yields_bind, yields_fresh, yields_pure]
    constructor
    · rintro ⟨_, _, ⟨rfl, rfl⟩, d, run₁, hd, ds, _, hds, rfl, rfl⟩
      exact ⟨d, run₁, ds, hd, hds, rfl⟩
    · rintro ⟨d, run₁, ds, hd, hds, rfl⟩
      exact ⟨_, _, ⟨rfl, rfl⟩, d, run₁, hd, ds, _, hds, rfl, rfl⟩
  · simp

/-! ## Groups -/

theorem placeholders_nil {gs : List Scheme} :
    (placeholders []).Yields run gs run' ↔ gs = [] ∧ run' = run := by
  rw [placeholders, yields_pure]

theorem placeholders_given {b : Binding} {bs : List Binding} {g : Scheme} {gs : List Scheme}
    (hb : b.scheme = some g) :
    (placeholders (b :: bs)).Yields run gs run' ↔
      ∃ hs, (placeholders bs).Yields run hs run' ∧ gs = g :: hs := by
  rw [placeholders, hb]
  simp only [yields_bind, yields_pure]
  constructor
  · rintro ⟨_, _, ⟨rfl, rfl⟩, hs, _, h, rfl, rfl⟩
    exact ⟨hs, h, rfl⟩
  · rintro ⟨hs, h, rfl⟩
    exact ⟨g, run, ⟨rfl, rfl⟩, hs, run', h, rfl, rfl⟩

theorem placeholders_open {b : Binding} {bs : List Binding} {gs : List Scheme}
    (hb : b.scheme = none) :
    (placeholders (b :: bs)).Yields run gs run' ↔
      ∃ hs, (placeholders bs).Yields (run.alloc 1) hs run' ∧
        gs = .mono (.var run.store.size) :: hs := by
  rw [placeholders, hb]
  simp only [yields_bind, yields_map, yields_fresh, yields_pure]
  constructor
  · rintro ⟨_, _, ⟨_, ⟨rfl, rfl⟩, rfl⟩, hs, _, h, rfl, rfl⟩
    exact ⟨hs, h, rfl⟩
  · rintro ⟨hs, h, rfl⟩
    exact ⟨_, _, ⟨_, ⟨rfl, rfl⟩, rfl⟩, hs, run', h, rfl, rfl⟩

theorem placeholders_length {bs : List Binding} {gs : List Scheme}
    (h : (placeholders bs).Yields run gs run') : gs.length = bs.length := by
  induction bs generalizing run gs with
  | nil =>
    obtain ⟨rfl, _⟩ := placeholders_nil.mp h
    rfl
  | cons b bs ih =>
    cases hb : b.scheme with
    | some g =>
      obtain ⟨hs, hrest, rfl⟩ := (placeholders_given hb).mp h
      rw [List.length_cons, List.length_cons, ih hrest]
    | none =>
      obtain ⟨hs, hrest, rfl⟩ := (placeholders_open hb).mp h
      rw [List.length_cons, List.length_cons, ih hrest]

/-- The generic type that a function of a group has inside the group is its own, or one without
parameters. -/
def Placed (b : Binding) (p : Scheme) : Prop := b.scheme = some p ∨ b.scheme = none ∧ p = .mono p.body

theorem placeholders_placed {bs : List Binding} {ps : List Scheme}
    (h : (placeholders bs).Yields run ps run') : List.Forall₂ Placed bs ps := by
  induction bs generalizing run ps with
  | nil =>
    obtain ⟨rfl, rfl⟩ := placeholders_nil.mp h
    exact .nil
  | cons b bs ih =>
    cases hb : b.scheme with
    | some g =>
      obtain ⟨qs, hrest, rfl⟩ := (placeholders_given hb).mp h
      exact .cons (.inl hb) (ih hrest)
    | none =>
      obtain ⟨qs, hrest, rfl⟩ := (placeholders_open hb).mp h
      exact .cons (.inr ⟨hb, rfl⟩) (ih hrest)

/-- A function as a function of a group. -/
def Binding.ofFunc (name : String) : Expr → Binding
  | .func params result body ty => .fn name none params result body ty
  | _ => .missing name none

/-- A function of a group is inferred like the function as an expression of its own. -/
theorem inferBinding_eq [Traversals] (name : String) (g : Option Scheme) (params : List Param)
    (result : Ty) (body : Expr) (ty : Ty) :
    inferBinding env expected (.fn name g params result body ty) =
      Binding.ofFunc name <$> infer env expected (.func params result body ty) := by
  simp only [inferBinding, infer, closeFunc, map_eq_pure_bind, bind_assoc, pure_bind]
  rfl

theorem inferBinding_yields {b b' : Binding} :
    (inferBinding env expected b).Yields run b' run' ↔
      ∃ name g params result body ty ps r c, b = .fn name g params result body ty ∧
        (infer env expected (.func params result body ty)).Yields run (.func ps r c expected) run' ∧
        b' = .fn name none ps r c expected := by
  cases b with
  | missing name g =>
    rw [inferBinding]
    simp
  | fn name g params result body ty =>
    rw [inferBinding_eq, yields_map]
    constructor
    · rintro ⟨f, hf, rfl⟩
      obtain ⟨ps, _, _, r, _, c, _, _, _, _, rfl, _⟩ := infer_func.mp hf
      exact ⟨name, g, params, result, body, ty, ps, r, c, rfl, hf, rfl⟩
    · rintro ⟨_, _, _, _, _, _, ps, r, c, ⟨⟩, hf, rfl⟩
      exact ⟨_, hf, rfl⟩

theorem inferBindings_nil {gs : List Scheme} {bs : List Binding} :
    (inferBindings env gs []).Yields run bs run' ↔ bs = [] ∧ run' = run := by
  rw [inferBindings, yields_pure]

theorem inferBindings_cons {g : Scheme} {gs : List Scheme} {b : Binding} {bs bs' : List Binding} :
    (inferBindings env (g :: gs) (b :: bs)).Yields run bs' run' ↔
      ∃ d run₁ ds, (inferBinding env g.body b).Yields run d run₁ ∧
        (inferBindings env gs bs).Yields run₁ ds run' ∧ bs' = d :: ds := by
  rw [inferBindings]
  simp only [yields_bind, yields_pure]
  constructor
  · rintro ⟨d, run₁, hd, ds, _, hds, rfl, rfl⟩
    exact ⟨d, run₁, ds, hd, hds, rfl⟩
  · rintro ⟨d, run₁, ds, hd, hds, rfl⟩
    exact ⟨d, run₁, hd, ds, _, hds, rfl, rfl⟩

/-- A function with its parts, as inference leaves it. -/
def Binding.IsFn (b : Binding) : Prop :=
  ∃ name g params result body ty, b = .fn name g params result body ty ∧ body.Formed

/-- Inferring the expression results in a well-formed tree. -/
def Forming (e : Expr) : Prop :=
  ∀ {env : Env} {x : Ty} {run run' : Run} {d : Expr}, (infer env x e).Yields run d run' → d.Formed

theorem inferBindings_isFn_of {gs : List Scheme} {bs ts : List Binding}
    (ih : ∀ b ∈ bs, ∀ f, b.func? = some f → Forming f)
    (h : (inferBindings env gs bs).Yields run ts run') (hlen : gs.length = bs.length) :
    ts.length = bs.length ∧ ∀ t ∈ ts, t.IsFn := by
  induction bs generalizing run gs ts with
  | nil =>
    obtain ⟨rfl, _⟩ := inferBindings_nil.mp h
    exact ⟨rfl, by simp⟩
  | cons b bs ihs =>
    cases gs with
    | nil => cases hlen
    | cons g gs =>
      rw [List.forall_mem_cons] at ih
      obtain ⟨d, run₁, ds, hd, hds, rfl⟩ := inferBindings_cons.mp h
      obtain ⟨name, _, _, _, _, _, ps, r, c, rfl, hf, rfl⟩ := inferBinding_yields.mp hd
      obtain ⟨hl, hfn⟩ := ihs ih.2 hds (Nat.succ.inj hlen)
      cases ih.1 _ rfl hf with
      | func hc => exact ⟨congrArg (· + 1) hl, List.forall_mem_cons.mpr ⟨⟨_, _, _, _, _, _, rfl, hc⟩, hfn⟩⟩

/-- The generic type that a function of a group gets and the function that is recorded: the given type,
or the inferred one closed in the environment outside the group. -/
inductive Generalized (s : Store) (outside : Env) (p : Scheme) :
    Option Scheme → Binding → Scheme → Binding → Prop
  | given {g : Scheme} {name : String} {old : Option Scheme} {params : List Param} {result : Ty}
      {body : Expr} {ty : Ty} :
      Generalized s outside p (some g) (.fn name old params result body ty) g
        (.fn name (some g) params result body ty)
  | closed {g : Scheme} {name : String} {old : Option Scheme} {params : List Param} {result : Ty}
      {body : Expr} {ty : Ty} :
      closing s outside p.body (.func params result body ty) = .ok (g, none) →
      Generalized s outside p none (.fn name old params result body ty) g
        (.fn name (some g) params result body ty)
  | named {g : Scheme} {store : Store} {name : String} {old : Option Scheme} {params : List Param}
      {result : Ty} {body : Expr} {ty : Ty} :
      closing s outside p.body (.func params result body ty) = .ok (g, some store) →
      Generalized s outside p none (.fn name old params result body ty) g
        (.fn name (some g) (params.map (Expr.mapParam store.resolve))
          (Expr.mapPresent store.resolve result) (body.mapTypes store.resolve)
          (Expr.mapPresent store.resolve ty))

/-- A well-formed function is retyped as a whole. -/
theorem retypeBinding_fn {store : Store} {name : String} {params : List Param} {result : Ty} {body : Expr}
    {ty : Ty} (hbody : body.Formed) :
    Expr.retypeBinding (Traversals.resolve store) (.fn name none params result body ty) =
      .ok (.fn name none (params.map (Expr.mapParam store.resolve))
        (Expr.mapPresent store.resolve result) (body.mapTypes store.resolve)
        (Expr.mapPresent store.resolve ty)) := by
  have hf : ∀ t, Traversals.resolve store t = .ok (store.resolve t) := fun _ => rfl
  rw [Expr.retypeBinding, Expr.retypeParams_eq hf, Expr.retypePresent_eq hf, Expr.retypePresent_eq hf,
    hbody.retype hf]
  rfl

theorem generalize_yields {own : Option Scheme} {p : Scheme} {t : Binding} {r : Scheme × Binding}
    (ht : t.IsFn) (h : (generalize env own p t).Yields run r run') :
    Generalized run.store env p own t r.1 r.2 ∧ ∃ names, run' = run.withNotes (run.log, names) := by
  obtain ⟨name, old, params, result, body, ty, rfl, hbody⟩ := ht
  cases own with
  | some g =>
    rw [generalize, yields_pure] at h
    obtain ⟨rfl, rfl⟩ := h
    exact ⟨.given, run'.names, rfl⟩
  | none =>
    rw [generalize] at h
    obtain ⟨⟨g, store?⟩, _, hclose, h⟩ := yields_bind.mp h
    obtain ⟨hc, _, rfl⟩ := yields_close.mp hclose
    cases store? with
    | none =>
      obtain ⟨rfl, rfl⟩ := yields_pure.mp h
      exact ⟨.closed hc, _, rfl⟩
    | some store =>
      obtain ⟨_, _, hr, h⟩ := yields_bind.mp h
      obtain ⟨hr, rfl⟩ := yields_lift.mp hr
      rw [retypeBinding_fn hbody] at hr
      cases hr
      obtain ⟨rfl, rfl⟩ := yields_pure.mp h
      exact ⟨.named hc, _, rfl⟩

theorem Generalized.yields {own : Option Scheme} {p g : Scheme} {t d : Binding}
    (h : Generalized run.store env p own t g d) (ht : t.IsFn) :
    ∃ names, (generalize env own p t).Yields run (g, d) (run.withNotes (run.log, names)) := by
  obtain ⟨name, old, params, result, body, ty, rfl, hbody⟩ := ht
  cases h with
  | given =>
    refine ⟨run.names, ?_⟩
    rw [generalize, yields_pure]
    exact ⟨rfl, rfl⟩
  | closed hc =>
    refine ⟨(run.closed env p.body (.func params result body ty)).names, ?_⟩
    rw [generalize]
    exact yields_bind.mpr ⟨(g, none), _, yields_close.mpr ⟨hc, by simp, rfl⟩, yields_pure.mpr ⟨rfl, rfl⟩⟩
  | @named _ store _ _ _ _ _ _ hc =>
    refine ⟨(run.closed env p.body (.func params result body ty)).names, ?_⟩
    rw [generalize]
    refine yields_bind.mpr ⟨(g, some store), _, yields_close.mpr ⟨hc, fun _ => ?_, rfl⟩, ?_⟩
    · exact (Expr.Formed.func hbody).walk
    · exact yields_bind.mpr ⟨_, _, yields_lift.mpr ⟨retypeBinding_fn hbody, rfl⟩, yields_pure.mpr ⟨rfl, rfl⟩⟩

theorem Generalized.isFn {s : Store} {outside : Env} {p g : Scheme} {own : Option Scheme}
    {t d : Binding} (h : Generalized s outside p own t g d) (ht : t.IsFn) : d.IsFn := by
  obtain ⟨_, _, _, _, _, _, rfl, hbody⟩ := ht
  cases h with
  | given => exact ⟨_, _, _, _, _, _, rfl, hbody⟩
  | closed _ => exact ⟨_, _, _, _, _, _, rfl, hbody⟩
  | named _ => exact ⟨_, _, _, _, _, _, rfl, hbody.mapTypes _⟩

/-- The functions of a group are generalised one by one: given functions, placeholders, inferred
functions, generic types and recorded functions. -/
inductive GeneralizedAll (s : Store) (outside : Env) :
    List Binding → List Scheme → List Binding → List Scheme → List Binding → Prop
  | nil : GeneralizedAll s outside [] [] [] [] []
  | cons {b t d : Binding} {p g : Scheme} {bs ts ds : List Binding} {ps gs : List Scheme} :
      Generalized s outside p b.scheme t g d → GeneralizedAll s outside bs ps ts gs ds →
      GeneralizedAll s outside (b :: bs) (p :: ps) (t :: ts) (g :: gs) (d :: ds)

theorem generalizeAll_nil {group : Nat} {outside : Env} {ps : List Scheme} {ts : List Binding}
    {r : List Binding × Env} :
    (generalizeAll group outside env [] ps ts).Yields run r run' ↔ r = ([], env) ∧ run' = run := by
  rw [generalizeAll, yields_pure]

theorem generalizeAll_cons {group : Nat} {outside : Env} {b t : Binding} {p : Scheme}
    {bs ts : List Binding} {ps : List Scheme} {r : List Binding × Env} :
    (generalizeAll group outside env (b :: bs) (p :: ps) (t :: ts)).Yields run r run' ↔
      ∃ g d run₁ ds outer, (generalize outside b.scheme p t).Yields run (g, d) run₁ ∧
        (generalizeAll group outside (env.extend b.name (some g)) bs ps ts).Yields
          (run₁.withLog (run₁.log.push (.generalized group b.name g))) (ds, outer) run' ∧
        r = (d :: ds, outer) := by
  rw [generalizeAll]
  simp only [yields_bind, yields_report, yields_pure]
  constructor
  · rintro ⟨⟨g, d⟩, run₁, hg, _, _, rfl, ⟨ds, outer⟩, _, h, rfl, rfl⟩
    exact ⟨g, d, run₁, ds, outer, hg, h, rfl⟩
  · rintro ⟨g, d, run₁, ds, outer, hg, h, rfl⟩
    exact ⟨(g, d), run₁, hg, (), _, rfl, (ds, outer), run', h, rfl, rfl⟩

/-- Generalising the functions of a group changes only the log and the supply of names. -/
theorem generalizeAll_yields {group : Nat} {outside : Env} {bs ts : List Binding} {ps : List Scheme}
    (hp : ps.length = bs.length) (hl : ts.length = bs.length) (ht : ∀ t ∈ ts, t.IsFn)
    {r : List Binding × Env}
    (h : (generalizeAll group outside env bs ps ts).Yields run r run') :
    ∃ gs notes, GeneralizedAll run.store outside bs ps ts gs r.1 ∧ r.2 = env.extendGroup bs gs ∧
      run' = run.withNotes notes := by
  induction bs generalizing env run ps ts r with
  | nil =>
    obtain rfl := List.length_eq_zero_iff.mp hp
    obtain rfl := List.length_eq_zero_iff.mp hl
    obtain ⟨rfl, rfl⟩ := generalizeAll_nil.mp h
    refine ⟨[], (run'.log, run'.names), .nil, ?_, rfl⟩
    rw [Env.extendGroup]
    simp
  | cons b bs ih =>
    cases ps with
    | nil => cases hp
    | cons p ps =>
      cases ts with
      | nil => cases hl
      | cons t ts =>
        rw [List.forall_mem_cons] at ht
        obtain ⟨g, d, run₁, ds, outer, hfirst, hrest, rfl⟩ := generalizeAll_cons.mp h
        obtain ⟨hg, names, rfl⟩ := generalize_yields ht.1 hfirst
        obtain ⟨gs, notes, hgs, henv, hrun⟩ := ih (Nat.succ.inj hp) (Nat.succ.inj hl) ht.2 hrest
        exact ⟨g :: gs, notes, .cons hg hgs, henv, hrun⟩

theorem GeneralizedAll.length {s : Store} {outside : Env} {bs ts ds : List Binding}
    {ps gs : List Scheme} (h : GeneralizedAll s outside bs ps ts gs ds) : gs.length = bs.length := by
  induction h with
  | nil => rfl
  | cons _ _ ih => rw [List.length_cons, List.length_cons, ih]

theorem GeneralizedAll.isFn {s : Store} {outside : Env} {bs ts ds : List Binding} {ps gs : List Scheme}
    (h : GeneralizedAll s outside bs ps ts gs ds) (ht : ∀ t ∈ ts, t.IsFn) : ∀ d ∈ ds, d.IsFn := by
  induction h with
  | nil => simp
  | cons hg _ ih =>
    rw [List.forall_mem_cons] at ht ⊢
    exact ⟨hg.isFn ht.1, ih ht.2⟩

/-- The functions of a group can be generalised if each of them can. -/
theorem GeneralizedAll.yields {group : Nat} {outside : Env} {bs ts ds : List Binding}
    {ps gs : List Scheme} (h : GeneralizedAll run.store outside bs ps ts gs ds)
    (ht : ∀ t ∈ ts, t.IsFn) :
    ∃ notes, (generalizeAll group outside env bs ps ts).Yields run (ds, env.extendGroup bs gs)
      (run.withNotes notes) := by
  generalize hs : run.store = s at h
  induction h generalizing env run with
  | nil =>
    refine ⟨(run.log, run.names), generalizeAll_nil.mpr ⟨?_, rfl⟩⟩
    rw [Env.extendGroup]
    simp
  | @cons b t d p g bs ts ds ps gs hg _ ih =>
    subst hs
    rw [List.forall_mem_cons] at ht
    obtain ⟨names, hfirst⟩ := hg.yields ht.1
    obtain ⟨notes, hrest⟩ := @ih (env.extend b.name (some g))
      ((run.withNotes (run.log, names)).withLog (run.log.push (.generalized group b.name g))) ht.2 rfl
    exact ⟨notes, generalizeAll_cons.mpr ⟨g, d, _, ds, _, hfirst, hrest, rfl⟩⟩

/-- A group: its functions are inferred with placeholders, all constraints are solved, the functions
are generalised, and the body is inferred with the generic types. -/
theorem infer_group {bs : List Binding} {body : Expr} {ty : Ty} :
    (infer env expected (.group bs body ty)).Yields run e' run' ↔
      ∃ ps run₁ ts run₂ run₃ ds outer run₄ b,
        (placeholders bs).Yields { run with groups := run.groups + 1 } ps run₁ ∧
        (inferBindings (env.extendGroup bs ps) ps bs).Yields run₁ ts run₂ ∧
        solve.Yields (run₂.withLog (run₂.log.push
          (.solving (run.groups + 1) bs.length run₂.queue.size))) () run₃ ∧
        (generalizeAll (run.groups + 1) env env bs ps ts).Yields run₃ (ds, outer) run₄ ∧
        (infer outer expected body).Yields run₄ b run' ∧ e' = .group ds b expected := by
  rw [infer]
  constructor
  · intro h
    obtain ⟨_, _, hm, h⟩ := yields_bind.mp h
    obtain rfl := yields_modify.mp hm
    rw [yields_get_bind] at h
    obtain ⟨ps, run₁, hp, h⟩ := yields_bind.mp h
    obtain ⟨ts, run₂, ht, h⟩ := yields_bind.mp h
    rw [yields_get_bind] at h
    obtain ⟨_, _, hr, h⟩ := yields_bind.mp h
    obtain rfl := yields_report.mp hr
    obtain ⟨_, run₃, hs, h⟩ := yields_bind.mp h
    obtain ⟨⟨ds, outer⟩, run₄, hg, h⟩ := yields_bind.mp h
    obtain ⟨b, _, hb, h⟩ := yields_bind.mp h
    obtain ⟨rfl, rfl⟩ := yields_pure.mp h
    exact ⟨ps, run₁, ts, run₂, run₃, ds, outer, run₄, b, hp, ht,
      yields_solve.mpr (yields_solveFor.mp hs), hg, hb, rfl⟩
  · rintro ⟨ps, run₁, ts, run₂, run₃, ds, outer, run₄, b, hp, ht, hs, hg, hb, rfl⟩
    refine yields_bind.mpr ⟨(), _, yields_modify.mpr rfl, yields_get_bind.mpr ?_⟩
    refine yields_bind.mpr ⟨ps, run₁, hp, yields_bind.mpr ⟨ts, run₂, ht, yields_get_bind.mpr ?_⟩⟩
    refine yields_bind.mpr ⟨(), _, yields_report.mpr rfl,
      yields_bind.mpr ⟨(), run₃, yields_solveFor.mpr (yields_solve.mp hs), ?_⟩⟩
    exact yields_bind.mpr ⟨(ds, outer), run₄, hg, yields_bind.mpr ⟨b, run', hb,
      yields_pure.mpr ⟨rfl, rfl⟩⟩⟩

/-! ## Well-formed results -/

theorem inferAll_formed {es ds : List Expr} (ih : ∀ e ∈ es, Forming e)
    (h : (inferAll env expected es).Yields run ds run') : ∀ d ∈ ds, d.Formed := by
  induction es generalizing run ds with
  | nil =>
    obtain ⟨rfl, rfl⟩ := inferAll_nil.mp h
    simp
  | cons e es ihs =>
    rw [List.forall_mem_cons] at ih
    obtain ⟨d, run₁, ds, hd, hds, rfl⟩ := inferAll_cons.mp h
    exact List.forall_mem_cons.mpr ⟨ih.1 hd, ihs ih.2 hds⟩

theorem inferEach_formed {es ds : List Expr} {ts : List Ty} (ih : ∀ e ∈ es, Forming e)
    (h : (inferEach env ts es).Yields run ds run') (hlen : ts.length = es.length) :
    ∀ d ∈ ds, d.Formed := by
  induction es generalizing run ts ds with
  | nil =>
    obtain ⟨rfl, rfl⟩ := inferEach_nil.mp h
    simp
  | cons e es ihs =>
    cases ts with
    | nil => cases hlen
    | cons t ts =>
      rw [List.forall_mem_cons] at ih
      obtain ⟨d, run₁, ds, hd, hds, rfl⟩ := inferEach_cons.mp h
      exact List.forall_mem_cons.mpr ⟨ih.1 hd, ihs ih.2 hds (Nat.succ.inj hlen)⟩

theorem inferItems_formed {es ds : List Expr} (ih : ∀ e ∈ es, Forming e) (hne : es ≠ [])
    (h : (inferItems env expected es).Yields run ds run') : ∀ d ∈ ds, d.Formed := by
  induction es generalizing env run ds with
  | nil => exact absurd rfl hne
  | cons e es ihs =>
    rw [List.forall_mem_cons] at ih
    cases es with
    | nil =>
      obtain ⟨d, hd, rfl⟩ := inferItems_last.mp h
      exact List.forall_mem_singleton.mpr (ih.1 hd)
    | cons f es =>
      obtain ⟨d, run₁, ds, hd, hds, rfl⟩ := inferItems_cons.mp h
      exact List.forall_mem_cons.mpr ⟨ih.1 hd, ihs ih.2 (by simp) hds⟩

theorem length_freshList (n : Nat) (s : Store) : (Store.freshList n s).1.length = n := by
  rw [Store.freshList_fst, List.length_map, List.length_range]

/-- Whatever is inferred is well formed: missing parts are refused, and inference adds none. -/
theorem infer_formed (e : Expr) : Forming e := by
  induction e with
  | absent => exact fun h => absurd h not_infer_absent
  | other kind => exact fun h => absurd h not_infer_other
  | int value ty =>
    intro env x run run' d h
    obtain ⟨rfl, _⟩ := infer_int.mp h
    exact .int _ _
  | str value ty =>
    intro env x run run' d h
    obtain ⟨rfl, _⟩ := infer_str.mp h
    exact .str _ _
  | var name typeArgs ty =>
    intro env x run run' d h
    obtain ⟨_, _, _, _, _, rfl, _⟩ := infer_var.mp h
    exact .var _ _ _
  | func params result body ty ih =>
    intro env x run run' d h
    obtain ⟨_, _, _, _, _, _, _, _, _, hb, rfl, _⟩ := infer_func.mp h
    exact .func (ih hb)
  | call callee args ty ihf iha =>
    intro env x run run' d h
    obtain ⟨f, run₁, es, hf, hes, rfl⟩ := infer_call.mp h
    exact .call (ihf hf) (inferEach_formed iha hes (length_freshList _ _))
  | letIn name annot value body ty ihv ihb =>
    intro env x run run' d h
    cases hab : body.isAbsent with
    | true =>
      obtain rfl := Expr.isAbsent_iff.mp hab
      obtain ⟨_, _, _, _, _, hv, rfl, _⟩ := infer_let_alone.mp h
      exact .letAlone (ihv hv)
    | false =>
      obtain ⟨_, _, _, _, _, _, hv, hb, rfl⟩ := (infer_let hab).mp h
      exact .letIn (ihv hv) (ihb hb)
  | group bs body ty ihf ihb =>
    intro env x run run' d h
    obtain ⟨ps, run₁, ts, run₂, run₃, ds, outer, run₄, b, hp, ht, _, hg, hb, rfl⟩ := infer_group.mp h
    have hplen := placeholders_length hp
    obtain ⟨htlen, hts⟩ := inferBindings_isFn_of ihf ht hplen
    obtain ⟨gs, notes, hga, _, _⟩ := generalizeAll_yields hplen htlen hts hg
    refine .group (fun c hc => ?_) (fun c hc f hf => ?_) (ihb hb)
    · obtain ⟨_, _, _, _, _, _, rfl, _⟩ := hga.isFn hts c hc
      rfl
    · obtain ⟨_, _, _, _, _, _, rfl, hbody⟩ := hga.isFn hts c hc
      cases hf
      exact .func hbody
  | array item items ty ih =>
    intro env x run run' d h
    obtain ⟨_, _, _, _, _, hes, rfl, _⟩ := infer_array.mp h
    exact .array (inferAll_formed ih hes)
  | seq effect value ty ihe ihv =>
    intro env x run run' d h
    obtain ⟨_, _, _, hd, hv, rfl⟩ := infer_seq.mp h
    exact .seq (ihe hd) (ihv hv)
  | block items ty ih =>
    intro env x run run' d h
    obtain ⟨hne, es, hes, rfl⟩ := infer_block.mp h
    exact .block (inferItems_formed ih hne hes)

theorem inferBindings_isFn {gs : List Scheme} {bs ts : List Binding}
    (h : (inferBindings env gs bs).Yields run ts run') (hlen : gs.length = bs.length) :
    ts.length = bs.length ∧ ∀ t ∈ ts, t.IsFn :=
  inferBindings_isFn_of (fun _ _ f _ => infer_formed f) h hlen

/-- What a group that was inferred went through, with the functions generalised one by one. -/
theorem infer_group_cases {bs : List Binding} {body : Expr} {ty : Ty}
    (h : (infer env expected (.group bs body ty)).Yields run e' run') :
    ∃ ps run₁ ts run₂ run₃ gs ds notes b,
      (placeholders bs).Yields { run with groups := run.groups + 1 } ps run₁ ∧
      (inferBindings (env.extendGroup bs ps) ps bs).Yields run₁ ts run₂ ∧
      solve.Yields (run₂.withLog (run₂.log.push
        (.solving (run.groups + 1) bs.length run₂.queue.size))) () run₃ ∧
      GeneralizedAll run₃.store env bs ps ts gs ds ∧
      (infer (env.extendGroup bs gs) expected body).Yields (run₃.withNotes notes) b run' ∧
      e' = .group ds b expected := by
  obtain ⟨ps, run₁, ts, run₂, run₃, ds, outer, run₄, b, hp, ht, hs, hg, hb, rfl⟩ :=
    infer_group.mp h
  obtain ⟨htlen, hfn⟩ := inferBindings_isFn ht (placeholders_length hp)
  obtain ⟨gs, notes, hga, rfl, rfl⟩ := generalizeAll_yields (placeholders_length hp) htlen hfn hg
  exact ⟨ps, run₁, ts, run₂, run₃, gs, ds, notes, b, hp, ht, hs, hga, hb, rfl⟩

/-- A group whose functions can be inferred, solved and generalised is inferred if its body is. -/
theorem infer_group_of {bs ts ds : List Binding} {body : Expr} {ty : Ty} {ps gs : List Scheme}
    {run₁ run₂ run₃ : Run}
    (hp : (placeholders bs).Yields { run with groups := run.groups + 1 } ps run₁)
    (ht : (inferBindings (env.extendGroup bs ps) ps bs).Yields run₁ ts run₂)
    (hs : solve.Yields (run₂.withLog (run₂.log.push
      (.solving (run.groups + 1) bs.length run₂.queue.size))) () run₃)
    (hg : GeneralizedAll run₃.store env bs ps ts gs ds) :
    ∃ notes, ∀ {b : Expr} {run' : Run},
      (infer (env.extendGroup bs gs) expected body).Yields (run₃.withNotes notes) b run' →
      (infer env expected (.group bs body ty)).Yields run (.group ds b expected) run' := by
  obtain ⟨_, hfn⟩ := inferBindings_isFn ht (placeholders_length hp)
  obtain ⟨notes, hyields⟩ := @GeneralizedAll.yields env run₃ (run.groups + 1) env bs ts ds ps gs hg hfn
  exact ⟨notes, fun hb => infer_group.mpr
    ⟨ps, run₁, ts, run₂, run₃, ds, _, _, _, hp, ht, hs, hyields, hb, rfl⟩⟩

/-! ## Programs -/

theorem inferRoot_yields {root : Expr} {r : Expr × Ty} :
    (inferRoot env root).Yields run r run' ↔
      ∃ typed run₁, (infer env (.var run.store.size) root).Yields (run.alloc 1) typed run₁ ∧
        solve.Yields run₁ () run' ∧
        r = (typed.mapTypes run'.store.resolve, run'.store.resolve (.var run.store.size)) := by
  have hf : ∀ (s : Store) t, Traversals.resolve s t = .ok (s.resolve t) := fun _ _ => rfl
  rw [inferRoot]
  constructor
  · intro h
    obtain ⟨_, _, hx, h⟩ := yields_bind.mp h
    obtain ⟨rfl, rfl⟩ := yields_fresh.mp hx
    obtain ⟨typed, run₁, ht, h⟩ := yields_bind.mp h
    obtain ⟨_, run₂, hs, h⟩ := yields_bind.mp h
    rw [yields_get_bind] at h
    obtain ⟨_, _, hr, h⟩ := yields_bind.mp h
    obtain ⟨hr, rfl⟩ := yields_lift.mp hr
    obtain ⟨_, _, hl, h⟩ := yields_bind.mp h
    obtain ⟨hl, rfl⟩ := yields_lift.mp hl
    obtain ⟨rfl, rfl⟩ := yields_pure.mp h
    rw [(infer_formed root ht).retype (hf _)] at hr
    cases hr
    cases hl
    exact ⟨typed, run₁, ht, hs, rfl⟩
  · rintro ⟨typed, run₁, ht, hs, rfl⟩
    refine yields_bind.mpr ⟨_, _, yields_fresh.mpr ⟨rfl, rfl⟩, yields_bind.mpr ⟨typed, run₁, ht, ?_⟩⟩
    refine yields_bind.mpr ⟨(), run', hs, yields_get_bind.mpr (yields_bind.mpr
      ⟨typed.mapTypes run'.store.resolve, run', ?_, ?_⟩)⟩
    · exact yields_lift.mpr ⟨(infer_formed root ht).retype (hf _), rfl⟩
    · exact yields_bind.mpr ⟨_, run', yields_lift.mpr ⟨hf _ _, rfl⟩, yields_pure.mpr ⟨rfl, rfl⟩⟩

/-- A call on a program that is there ends as its action does, which starts from the cleared state. -/
theorem Context.call_eq {α : Type} (c : Context) {root : Expr} (hr : root.isAbsent = false)
    (action : InferM α) :
    c.call root action = match action c.reset.run with
      | .ok a run => (⟨.ok a, run.log.toList⟩, after run)
      | .error (.failed e) run => (⟨.error (.error e), run.log.toList⟩, after run)
      | .error (.fault f) run => (⟨.error (.fault f), run.log.toList⟩, after run) := by
  rw [Context.call, hr]
  rfl

theorem Context.call_ok {α : Type} {c : Context} {root : Expr} (hr : root.isAbsent = false)
    {action : InferM α} {a : α} :
    (c.call root action).1.result = .ok a ↔ ∃ run, action.Yields c.reset.run a run := by
  rw [Context.call_eq c hr]
  unfold Yields
  cases action c.reset.run with
  | ok b run => simp
  | error stop run => cases stop <;> simp

theorem Context.call_error {α : Type} {c : Context} {root : Expr} (hr : root.isAbsent = false)
    {action : InferM α} {error : InferError} :
    (c.call root action).1.result = .error (.error error) ↔
      ∃ run, action c.reset.run = .error (.failed error) run := by
  rw [Context.call_eq c hr]
  cases action c.reset.run with
  | ok b run => simp
  | error stop run => cases stop <;> simp

/-- An action that ends well, on a program that is there, is the result of a call. -/
theorem call_result {α : Type} {root : Expr} {action : InferM α} {a : α} :
    (Context.new.call root action).1.result = .ok a ↔
      root.isAbsent = false ∧ ∃ run, action.Yields .start a run := by
  cases hr : root.isAbsent with
  | true => simp [Context.call, hr]
  | false =>
    rw [Context.call_ok hr]
    simp [Context.reset, Context.new]

theorem infer_result {env : Env} {e : Expr} {t : Ty} :
    (Context.new.infer e (some env)).1.result = .ok t ↔
      e.isAbsent = false ∧ ∃ typed run, (inferRoot env e).Yields .start (typed, t) run := by
  rw [Context.infer, call_result]
  simp only [Option.getD_some, yields_bind, yields_pure]
  constructor
  · rintro ⟨he, run, ⟨typed, _⟩, _, h, rfl, rfl⟩
    exact ⟨he, typed, run, h⟩
  · rintro ⟨he, typed, run, h⟩
    exact ⟨he, run, (typed, t), run, h, rfl, rfl⟩

theorem annotate_result {env : Env} {e d : Expr} :
    (Context.new.annotate e (some env)).1.result = .ok d ↔
      e.isAbsent = false ∧ ∃ t run, (inferRoot env e).Yields .start (d, t) run := by
  rw [Context.annotate, call_result]
  simp only [Option.getD_some, yields_bind, yields_pure]
  constructor
  · rintro ⟨he, run, ⟨_, t⟩, _, h, rfl, rfl⟩
    exact ⟨he, t, run, h⟩
  · rintro ⟨he, t, run, h⟩
    exact ⟨he, run, (d, t), run, h, rfl, rfl⟩

theorem inferGeneric_result {env : Env} {e : Expr} {g : Scheme} :
    (Context.new.inferGeneric e (some env)).1.result = .ok g ↔ e.isAbsent = false ∧
      ∃ typed t run store?, (inferRoot env e).Yields .start (typed, t) run ∧
        closing run.store env t .absent = .ok (g, store?) := by
  rw [Context.inferGeneric, call_result]
  simp only [Option.getD_some, yields_bind, yields_close, yields_pure]
  constructor
  · rintro ⟨he, run, ⟨typed, t⟩, _, h, ⟨_, store?⟩, _, ⟨hc, _, rfl⟩, rfl, rfl⟩
    exact ⟨he, typed, t, _, store?, h, hc⟩
  · rintro ⟨he, typed, t, run, store?, h, hc⟩
    exact ⟨he, _, (typed, t), run, h, (g, store?), _, ⟨hc, fun _ => ⟨[], rfl⟩, rfl⟩, rfl, rfl⟩

theorem annotateGeneric_result {env : Env} {e d : Expr} {g : Scheme} :
    (Context.new.annotateGeneric e (some env)).1.result = .ok (d, g) ↔ e.isAbsent = false ∧
      ∃ t run store?, (inferRoot env e).Yields .start (d, t) run ∧
        closing run.store env t .absent = .ok (g, store?) := by
  rw [Context.annotateGeneric, call_result]
  simp only [Option.getD_some, yields_bind, yields_close, yields_pure]
  constructor
  · rintro ⟨he, run, ⟨_, t⟩, _, h, ⟨_, store?⟩, _, ⟨hc, _, rfl⟩, ⟨⟩, rfl⟩
    exact ⟨he, t, _, store?, h, hc⟩
  · rintro ⟨he, t, run, store?, h, hc⟩
    exact ⟨he, _, (d, t), run, h, (g, store?), _, ⟨hc, fun _ => ⟨[], rfl⟩, rfl⟩, rfl, rfl⟩

end

end Polytype
