import Mathlib
import Polytype.Proofs.Infer.Steps

/-!
# Where inference stops

Inference of a node either stops at the node itself or comes to a part of it and stops there. The first
has ten ways (`HaltsAt`). For the second, `Enters` says with which environment, expected type and state
each part is begun. `infer_breaks` lists the ways for all forms of expressions at once: what is to be shown
of every stop is shown of the places where nodes stop, with an invariant that goes from a node to its
parts (`infer_stops_of`).

`m.Stops E run` says that whatever stops a step has a property, together with the state that is left. There
is one lemma for each operation that steps are composed of, and for a sequence of two steps: the second is
looked at only where the first ends well.
-/

namespace Polytype

/-- An error has been recorded, with the expression to blame. -/
def Run.failing (run : Run) (error : InferError) (invalid : Expr) : Run :=
  { run with error := some error, invalid }

namespace InferM

/-! ## Operations -/

/-- Whatever stops a step has a property. -/
def Stops {α : Type} (E : Stop → Run → Prop) (m : InferM α) (run : Run) : Prop :=
  ∀ stop run', m run = .error stop run' → E stop run'

section

variable {α β : Type} {E E' : Stop → Run → Prop} {run : Run}

theorem Stops.imp {m : InferM α} (h : m.Stops E run) (hi : ∀ stop run', E stop run' → E' stop run') :
    m.Stops E' run :=
  fun stop run' hs => hi stop run' (h stop run' hs)

theorem stops_bind {m : InferM α} {f : α → InferM β} :
    (m >>= f).Stops E run ↔
      m.Stops E run ∧ ∀ a run₁, m.Yields run a run₁ → (f a).Stops E run₁ := by
  show (∀ stop run', EStateM.bind m f run = .error stop run' → E stop run') ↔ _
  unfold Stops Yields EStateM.bind
  cases m run with
  | ok a run₁ => simp
  | error stop run₁ => simp

theorem stops_pure (a : α) : (pure a : InferM α).Stops E run := by
  intro stop run' h
  cases h

theorem stops_map {m : InferM α} {f : α → β} (h : m.Stops E run) : (f <$> m).Stops E run := by
  rw [map_eq_pure_bind, stops_bind]
  exact ⟨h, fun a run₁ _ => stops_pure (f a)⟩

theorem stops_throw {stop : Stop} : (throw stop : InferM α).Stops E run ↔ E stop run := by
  constructor
  · exact fun h => h stop run rfl
  · rintro h _ _ ⟨⟩
    exact h

theorem stops_fail {e : InferError} {x : Expr} :
    (fail e x : InferM α).Stops E run ↔ E (.failed e) (run.failing e x) := by
  constructor
  · exact fun h => h _ _ rfl
  · rintro h _ _ ⟨⟩
    exact h

/-- Types that were not unified are an error of the program, unless there was no answer. -/
theorem stops_refuse {e : UnifyError} {x : Expr} (hf : ∀ f, e = .broken f → E (.fault f) run)
    (he : (∀ f, e ≠ .broken f) → E (.failed (.unify e)) (run.failing (.unify e) x)) :
    (refuse e x : InferM α).Stops E run := by
  cases e with
  | broken f => exact stops_throw.mpr (hf f rfl)
  | mismatch a b => exact stops_fail.mpr (he nofun)
  | infinite i t => exact stops_fail.mpr (he nofun)
  | foreign i => exact stops_fail.mpr (he nofun)

theorem stops_lift {x : Except Fault α} :
    (lift x).Stops E run ↔ ∀ f, x = .error f → E (.fault f) run := by
  cases x with
  | ok a => simp [lift, stops_pure]
  | error f => simp [lift, stops_throw]

theorem stops_get_bind {f : Run → InferM α} :
    ((get : InferM Run) >>= f).Stops E run ↔ (f run).Stops E run := Iff.rfl

theorem stops_modify (f : Run → Run) : (modify f : InferM Unit).Stops E run := by
  intro stop run' h
  cases h

theorem stops_fresh : fresh.Stops E run := by
  intro stop run' h
  cases h

theorem stops_freshList (n : Nat) : (freshList n).Stops E run := by
  intro stop run' h
  cases h

theorem stops_orFresh (t : Ty) : (orFresh t).Stops E run := by
  cases t with
  | absent => exact stops_fresh
  | var i => exact stops_pure _
  | con n as => exact stops_pure _

theorem stops_emit (a b : Ty) (e : Expr) : (InferM.emit a b e).Stops E run := stops_modify _

theorem stops_report (e : Event) : (report e).Stops E run := stops_modify _

theorem stops_instantiate (g : Scheme) : (instantiate g).Stops E run := by
  intro stop run' h
  cases h

theorem stops_emit_pure {a b : Ty} {e e' : Expr} :
    Stops E (do InferM.emit a b e; return e') run :=
  stops_bind.mpr ⟨stops_emit a b e, fun _ _ _ => stops_pure e'⟩

theorem stops_unify {a b : Ty} {x : Expr} :
    (InferM.unify a b x).Stops E run ↔ ∀ e, (run.store.unify a b).2 = some e →
      (refuse e x : InferM Unit).Stops E (run.withStore (run.store.unify a b).1) := by
  rw [InferM.unify, stops_get_bind, Traversals.unify_eq]
  generalize run.store.unify a b = r
  obtain ⟨s, e⟩ := r
  cases e with
  | none =>
    show Stops E (pure ()) (run.withStore s) ↔ _
    simp [stops_pure]
  | some e =>
    show Stops E (refuse e x : InferM Unit) (run.withStore s) ↔ _
    simp

theorem stops_solveFor {x : Expr} :
    (solveFor x).Stops E run ↔ ∀ e y, (Queue.solveList run.store run.queue.toList).2 = some (e, y) →
      (refuse e (if y.isAbsent then x else y) : InferM Unit).Stops E
        (run.withStore (Queue.solveList run.store run.queue.toList).1) := by
  rw [solveFor, stops_get_bind, Queue.solve]
  generalize Queue.solveList run.store run.queue.toList = r
  obtain ⟨s, e⟩ := r
  cases e with
  | none =>
    show Stops E (pure ()) (run.solved s) ↔ _
    simp [stops_pure]
  | some e =>
    show Stops E (refuse e.1 (if e.2.isAbsent then x else e.2) : InferM Unit) (run.withStore s) ↔ _
    constructor
    · rintro h _ _ ⟨⟩
      exact h
    · exact fun h => h e.1 e.2 rfl

/-- Closing a type and walking through the scope leave the state as it is when they come to a fault. -/
theorem stops_close {env : Env} {t : Ty} {scope : Expr}
    (hc : ∀ f, closing run.store env t scope = .error f → E (.fault f) run)
    (hw : ∀ f, scope.walk = .error f → E (.fault f) run) : (close env t scope).Stops E run := by
  rw [close, stops_get_bind]
  refine stops_bind.mpr ⟨stops_lift.mpr fun f hf => hc f ?_, ?_⟩
  · rw [← closing_eq run.names, hf]
    rfl
  · rintro ⟨g, named, names⟩ run₁ hl
    obtain ⟨_, rfl⟩ := yields_lift.mp hl
    cases named with
    | none => exact stops_bind.mpr ⟨stops_modify _, fun _ _ _ => stops_pure _⟩
    | some store =>
      refine stops_bind.mpr ⟨stops_lift.mpr hw, fun _ run₂ hl => ?_⟩
      obtain ⟨_, rfl⟩ := yields_lift.mp hl
      exact stops_bind.mpr ⟨stops_modify _, fun _ _ _ => stops_pure _⟩

end

end InferM

open InferM

section

variable {E : Stop → Run → Prop} {env : Env} {t : Ty} {run : Run}

theorem openParams_stops (ps : List Param) : (openParams env ps).Stops E run := by
  induction ps generalizing env run with
  | nil =>
    rw [openParams]
    exact stops_pure _
  | cons p ps ih =>
    rw [openParams]
    exact stops_bind.mpr ⟨stops_orFresh p.ty, fun t run₁ _ =>
      stops_bind.mpr ⟨ih, fun _ _ _ => stops_pure _⟩⟩

theorem closeFunc_stops (ps : List Param) (r : Ty) (b : Expr) : (closeFunc t ps r b).Stops E run :=
  stops_emit_pure

theorem placeholders_stops (bs : List Binding) : (placeholders bs).Stops E run := by
  induction bs generalizing run with
  | nil =>
    rw [placeholders]
    exact stops_pure []
  | cons b bs ih =>
    rw [placeholders]
    cases b.scheme with
    | some g =>
      exact stops_bind.mpr ⟨stops_pure g, fun _ _ _ => stops_bind.mpr ⟨ih, fun _ _ _ => stops_pure _⟩⟩
    | none =>
      exact stops_bind.mpr ⟨stops_map stops_fresh, fun _ _ _ =>
        stops_bind.mpr ⟨ih, fun _ _ _ => stops_pure _⟩⟩

/-- A type can be closed if every name that is bound has a type and the scope is well formed. -/
theorem close_stops {scope : Expr} (hw : ∃ ns, scope.walk = .ok ns)
    (hE : ∀ f, ¬ env.Present → E (.fault f) run) : (close env t scope).Stops E run := by
  refine stops_close (fun f hf => hE f fun hpres => ?_) fun f hf => ?_
  · obtain ⟨r, hr⟩ := closing_isOk.mpr (.inr hpres : _ ∨ env.Present)
    rw [hr] at hf
    cases hf
  · obtain ⟨ns, hns⟩ := hw
    rw [hns] at hf
    cases hf

theorem generalize_stops {own : Option Scheme} {p : Scheme} {b : Binding} (hb : b.IsFn)
    (hE : ∀ f, ¬ env.Present → E (.fault f) run) : (generalize env own p b).Stops E run := by
  obtain ⟨name, old, params, result, body, ty, rfl, hbody⟩ := hb
  cases own with
  | some g =>
    rw [generalize]
    exact stops_pure _
  | none =>
    rw [generalize]
    refine stops_bind.mpr ⟨close_stops (Expr.Formed.func hbody).walk hE, ?_⟩
    rintro ⟨g, store?⟩ _ _
    cases store? with
    | none => exact stops_pure _
    | some store =>
      refine stops_bind.mpr ⟨stops_lift.mpr fun f hf => ?_, fun _ _ _ => stops_pure _⟩
      rw [retypeBinding_fn hbody] at hf
      cases hf

/-- What keeps the functions of a group from being generalised is that the environment binds a name to no
type. -/
theorem generalizeAll_stops {group : Nat} {outside : Env} {bs ts : List Binding} {ps : List Scheme}
    (hp : ps.length = bs.length) (hl : ts.length = bs.length) (ht : ∀ t ∈ ts, t.IsFn)
    (hE : ∀ f notes, ¬ outside.Present → E (.fault f) (run.withNotes notes)) :
    (generalizeAll group outside env bs ps ts).Stops E run := by
  induction bs generalizing env run ps ts with
  | nil =>
    rw [generalizeAll]
    exact stops_pure _
  | cons b bs ih =>
    cases ps with
    | nil => cases hp
    | cons p ps =>
      cases ts with
      | nil => cases hl
      | cons t ts =>
        rw [List.forall_mem_cons] at ht
        rw [generalizeAll]
        refine stops_bind.mpr ⟨generalize_stops ht.1 fun f => hE f (run.log, run.names), ?_⟩
        rintro ⟨g, d⟩ run₁ hg
        obtain ⟨_, names, rfl⟩ := generalize_yields ht.1 hg
        refine stops_bind.mpr ⟨stops_report _, fun _ run₂ hlog => ?_⟩
        obtain rfl := yields_report.mp hlog
        exact stops_bind.mpr ⟨ih (Nat.succ.inj hp) (Nat.succ.inj hl) ht.2 hE, fun _ _ _ => stops_pure _⟩

/-- A function of a group is stopped where the function as an expression of its own is. -/
theorem inferBinding_stops {b : Binding} {f : Expr} (hb : b.func? = some f)
    (h : (infer env t f).Stops E run) : (inferBinding env t b).Stops E run := by
  cases b with
  | missing name g => cases hb
  | fn name g params result body ty =>
    cases hb
    rw [inferBinding_eq]
    exact stops_map h

end

/-! ## Parts -/

/-- Type arguments that are unified in turn come to one of them. -/
inductive EntersArgs : List Ty → List Ty → Run → Ty → Ty → Run → Prop
  | head {a v : Ty} {as vs : List Ty} {run : Run} : EntersArgs (a :: as) (v :: vs) run a v run
  | tail {a v a' v' : Ty} {as vs : List Ty} {run run' : Run} :
      (run.store.unify a v).2 = none →
      EntersArgs as vs (run.withStore (run.store.unify a v).1) a' v' run' →
      EntersArgs (a :: as) (v :: vs) run a' v' run'

/-- Expressions of one type come to one of them. -/
inductive EntersAll (env : Env) (t : Ty) : List Expr → Run → Expr → Run → Prop
  | head {e : Expr} {es : List Expr} {run : Run} : EntersAll env t (e :: es) run e run
  | tail {e d e' : Expr} {es : List Expr} {run run₁ run' : Run} :
      (infer env t e).Yields run d run₁ → EntersAll env t es run₁ e' run' →
      EntersAll env t (e :: es) run e' run'

/-- Expressions with a type for each come to one of them. -/
inductive EntersEach (env : Env) : List Ty → List Expr → Run → Ty → Expr → Run → Prop
  | head {t : Ty} {ts : List Ty} {e : Expr} {es : List Expr} {run : Run} :
      EntersEach env (t :: ts) (e :: es) run t e run
  | tail {t t' : Ty} {ts : List Ty} {e d e' : Expr} {es : List Expr} {run run₁ run' : Run} :
      (infer env t e).Yields run d run₁ → EntersEach env ts es run₁ t' e' run' →
      EntersEach env (t :: ts) (e :: es) run t' e' run'

/-- The items of a block come to one of them. -/
inductive EntersItems (t : Ty) : Env → List Expr → Run → Env → Ty → Expr → Run → Prop
  | last {env : Env} {e : Expr} {run : Run} : EntersItems t env [e] run env t e run
  | head {env : Env} {e f : Expr} {es : List Expr} {run : Run} :
      EntersItems t env (e :: f :: es) run env (.var run.store.size) e (run.alloc 1)
  | tail {env env' : Env} {t' : Ty} {e f d e' : Expr} {es : List Expr} {run run₁ run' : Run} :
      (infer env (.var run.store.size) e).Yields (run.alloc 1) d run₁ →
      EntersItems t (env.after d) (f :: es) run₁ env' t' e' run' →
      EntersItems t env (e :: f :: es) run env' t' e' run'

/-- The functions of a group come to one of them. -/
inductive EntersBindings (env : Env) : List Scheme → List Binding → Run → Ty → Binding → Run → Prop
  | head {g : Scheme} {gs : List Scheme} {b : Binding} {bs : List Binding} {run : Run} :
      EntersBindings env (g :: gs) (b :: bs) run g.body b run
  | tail {t : Ty} {g : Scheme} {gs : List Scheme} {b d b' : Binding} {bs : List Binding}
      {run run₁ run' : Run} :
      (inferBinding env g.body b).Yields run d run₁ → EntersBindings env gs bs run₁ t b' run' →
      EntersBindings env (g :: gs) (b :: bs) run t b' run'

theorem EntersAll.mem {env : Env} {t : Ty} {es : List Expr} {e : Expr} {run run' : Run}
    (h : EntersAll env t es run e run') : e ∈ es := by
  induction h with
  | head => exact List.mem_cons_self
  | tail _ _ ih => exact List.mem_cons_of_mem _ ih

theorem EntersEach.mem {env : Env} {ts : List Ty} {es : List Expr} {t : Ty} {e : Expr} {run run' : Run}
    (h : EntersEach env ts es run t e run') : e ∈ es := by
  induction h with
  | head => exact List.mem_cons_self
  | tail _ _ ih => exact List.mem_cons_of_mem _ ih

theorem EntersItems.mem {env env' : Env} {es : List Expr} {t t' : Ty} {e : Expr} {run run' : Run}
    (h : EntersItems t env es run env' t' e run') : e ∈ es := by
  induction h with
  | last => exact List.mem_cons_self
  | head => exact List.mem_cons_self
  | tail _ _ ih => exact List.mem_cons_of_mem _ ih

theorem EntersBindings.mem {env : Env} {ps : List Scheme} {bs : List Binding} {t : Ty} {b : Binding}
    {run run' : Run} (h : EntersBindings env ps bs run t b run') : b ∈ bs := by
  induction h with
  | head => exact List.mem_cons_self
  | tail _ _ ih => exact List.mem_cons_of_mem _ ih

/-- A group up to where its functions have been inferred and the pending equations are to be solved. -/
structure GroupTyped (env : Env) (bs : List Binding) (run : Run) (ps : List Scheme) (ts : List Binding)
    (run₁ run₂ run' : Run) : Prop where
  placed : (placeholders bs).Yields { run with groups := run.groups + 1 } ps run₁
  inferred : (inferBindings (env.extendGroup bs ps) ps bs).Yields run₁ ts run₂
  reported : run' = run₂.withLog (run₂.log.push
    (.solving (run.groups + 1) bs.length run₂.queue.size))

/-- Inferring a node comes to one of its parts: the environment, the expected type, the node and the state,
and the same of the part. -/
inductive Enters : Env → Ty → Expr → Run → Env → Ty → Expr → Run → Prop
  | body {env inner : Env} {t result r ty : Ty} {params ps : List Param} {body : Expr}
      {run run₁ run₂ : Run} :
      (openParams env params).Yields run (ps, inner) run₁ → (orFresh result).Yields run₁ r run₂ →
      Enters env t (.func params result body ty) run inner r body run₂
  | callee {env : Env} {t ty : Ty} {callee : Expr} {args : List Expr} {run : Run} :
      Enters env t (.call callee args ty) run env
        (.function (Store.freshList args.length run.store).1 t) callee (run.alloc args.length)
  | arg {env : Env} {t t' ty : Ty} {callee f e : Expr} {args : List Expr} {run run₁ run' : Run} :
      (infer env (.function (Store.freshList args.length run.store).1 t) callee).Yields
        (run.alloc args.length) f run₁ →
      EntersEach env (Store.freshList args.length run.store).1 args run₁ t' e run' →
      Enters env t (.call callee args ty) run env t' e run'
  | value {env : Env} {t annot a ty : Ty} {name : String} {value body : Expr} {run run₁ : Run} :
      (orFresh annot).Yields run a run₁ →
      Enters env t (.letIn name annot value body ty) run env a value run₁
  | letBody {env : Env} {t annot a ty : Ty} {name : String} {value v body : Expr}
      {run run₁ run₂ : Run} :
      (orFresh annot).Yields run a run₁ → (infer env a value).Yields run₁ v run₂ →
      body.isAbsent = false →
      Enters env t (.letIn name annot value body ty) run (env.declare name a) t body run₂
  | function {env : Env} {t t' ty : Ty} {bs : List Binding} {b : Binding} {f body : Expr}
      {ps : List Scheme} {run run₁ run' : Run} :
      (placeholders bs).Yields { run with groups := run.groups + 1 } ps run₁ →
      EntersBindings (env.extendGroup bs ps) ps bs run₁ t' b run' → b.func? = some f →
      Enters env t (.group bs body ty) run (env.extendGroup bs ps) t' f run'
  | groupBody {env : Env} {t ty : Ty} {bs ts ds : List Binding} {body : Expr} {ps gs : List Scheme}
      {run run₁ run₂ run₃ run' : Run} {notes : Array Event × NameSupply} :
      GroupTyped env bs run ps ts run₁ run₂ run₃ → solve.Yields run₃ () run' →
      GeneralizedAll run'.store env bs ps ts gs ds →
      Enters env t (.group bs body ty) run (env.extendGroup bs gs) t body (run'.withNotes notes)
  | element {env : Env} {t item a ty : Ty} {items : List Expr} {e : Expr} {run run₁ run' : Run} :
      (orFresh item).Yields run a run₁ → EntersAll env a items run₁ e run' →
      Enters env t (.array item items ty) run env a e run'
  | effect {env : Env} {t ty : Ty} {effect value : Expr} {run : Run} :
      Enters env t (.seq effect value ty) run env (.var run.store.size) effect (run.alloc 1)
  | result {env : Env} {t ty : Ty} {effect value d : Expr} {run run₁ : Run} :
      (infer env (.var run.store.size) effect).Yields (run.alloc 1) d run₁ →
      Enters env t (.seq effect value ty) run env t value run₁
  | item {env env' : Env} {t t' ty : Ty} {items : List Expr} {e : Expr} {run run' : Run} :
      EntersItems t env items run env' t' e run' →
      Enters env t (.block items ty) run env' t' e run'

section

variable {env env' : Env} {t t' : Ty} {e e' : Expr} {run run' : Run}

/-- The parts of a well-formed expression are well formed. -/
theorem Enters.formed (h : Enters env t e run env' t' e' run') (he : e.Formed) : e'.Formed := by
  cases h with
  | body _ _ => cases he with | func hb => exact hb
  | callee => cases he with | call hf _ => exact hf
  | arg _ hin => cases he with | call _ has => exact has _ hin.mem
  | value _ =>
    cases he with
    | letAlone hv => exact hv
    | letIn hv _ => exact hv
  | letBody _ _ hb =>
    cases he with
    | letAlone _ => cases hb
    | letIn _ hbody => exact hbody
  | function _ hin hf => cases he with | group _ hfs _ => exact hfs _ hin.mem _ hf
  | groupBody _ _ _ => cases he with | group _ _ hb => exact hb
  | element _ hin => cases he with | array hes => exact hes _ hin.mem
  | effect => cases he with | seq hd _ => exact hd
  | result _ => cases he with | seq _ hv => exact hv
  | item hin => cases he with | block hes => exact hes _ hin.mem

/-- What holds of every node holds of every node of a part. -/
theorem Enters.every {P : Expr → Prop} (h : Enters env t e run env' t' e' run') (he : e.Every P) :
    e'.Every P := by
  cases h with
  | body _ _ => exact (Expr.every_func.mp he).2
  | callee => exact (Expr.every_call.mp he).2.1
  | arg _ hin => exact (Expr.every_call.mp he).2.2 _ hin.mem
  | value _ => exact (Expr.every_letIn.mp he).2.1
  | letBody _ _ _ => exact (Expr.every_letIn.mp he).2.2
  | function _ hin hf => exact (Expr.every_group.mp he).2.1 _ hin.mem _ hf
  | groupBody _ _ _ => exact (Expr.every_group.mp he).2.2
  | element _ hin => exact (Expr.every_array.mp he).2 _ hin.mem
  | effect => exact (Expr.every_seq.mp he).2.1
  | result _ => exact (Expr.every_seq.mp he).2.2
  | item hin => exact (Expr.every_block.mp he).2 _ hin.mem

theorem openParams_present {ps qs : List Param} {inner : Env} (hp : env.Present)
    (h : (openParams env ps).Yields run (qs, inner) run') : inner.Present := by
  induction ps generalizing env run qs inner with
  | nil =>
    obtain ⟨⟨⟩, rfl⟩ := openParams_nil.mp h
    exact hp
  | cons p ps ih =>
    obtain ⟨t, run₁, qs, inner, _, hrest, ⟨⟩⟩ := openParams_cons.mp h
    exact ih (hp.extend p.name (.mono t)) hrest

theorem Env.Present.after (h : env.Present) (d : Expr) : (env.after d).Present := by
  cases d with
  | letIn name annot value body ty =>
    cases body with
    | absent => exact h.extend name (.mono annot)
    | _ => exact h
  | _ => exact h

theorem EntersItems.present {es : List Expr} (h : EntersItems t env es run env' t' e run')
    (hp : env.Present) : env'.Present := by
  induction h with
  | last => exact hp
  | head => exact hp
  | tail _ _ ih => exact ih (hp.after _)

/-- Parts are inferred in environments that bind no name to no type, if the whole is. -/
theorem Enters.present (h : Enters env t e run env' t' e' run') (hp : env.Present) : env'.Present := by
  cases h with
  | body hopen _ => exact openParams_present hp hopen
  | callee => exact hp
  | arg _ _ => exact hp
  | value _ => exact hp
  | letBody _ _ _ => exact hp.extend _ (.mono _)
  | function _ _ _ => exact hp.extendGroup _ _
  | groupBody _ _ _ => exact hp.extendGroup _ _
  | element _ _ => exact hp
  | effect => exact hp
  | result _ => exact hp
  | item hin => exact hin.present hp

end

/-! ## Nodes -/

/-- Inferring a node stops at the node itself. -/
inductive HaltsAt (env : Env) (t : Ty) : Expr → Run → Stop → Run → Prop
  | absent {run : Run} :
      HaltsAt env t .absent run (.failed (.unhandled none)) (run.failing (.unhandled none) .absent)
  | other {kind : String} {run : Run} :
      HaltsAt env t (.other kind) run (.failed (.unhandled (some kind)))
        (run.failing (.unhandled (some kind)) (.other kind))
  | unbound {name : String} {typeArgs : Option (List Ty)} {ty : Ty} {run : Run} :
      env.lookup? name = none →
      HaltsAt env t (.var name typeArgs ty) run (.failed (.unbound name))
        (run.failing (.unbound name) (.var name typeArgs ty))
  | untyped {name : String} {typeArgs : Option (List Ty)} {ty : Ty} {run : Run} :
      env.lookup? name = some none →
      HaltsAt env t (.var name typeArgs ty) run (.fault .missingScheme) run
  | arity {name : String} {args : List Ty} {ty : Ty} {g : Scheme} {run : Run} :
      env.lookup? name = some (some g) → args.length ≠ g.params.length →
      HaltsAt env t (.var name (some args) ty) run
        (.failed (.arity name g.params.length args.length))
        ((run.alloc g.params.length).failing (.arity name g.params.length args.length)
          (.var name (some args) ty))
  | typeArgument {name : String} {args : List Ty} {a v ty : Ty} {g : Scheme} {error : UnifyError}
      {stop : Stop} {run run₁ run' : Run} :
      env.lookup? name = some (some g) →
      EntersArgs args (Store.freshList g.params.length run.store).1 (run.alloc g.params.length) a v run₁ →
      (run₁.store.unify a v).2 = some error →
      (refuse error (.var name (some args) ty) : InferM Unit)
        (run₁.withStore (run₁.store.unify a v).1) = .error stop run' →
      HaltsAt env t (.var name (some args) ty) run stop run'
  | missing {bs : List Binding} {b : Binding} {body : Expr} {t' ty : Ty} {ps : List Scheme}
      {run run₁ run' : Run} :
      (placeholders bs).Yields { run with groups := run.groups + 1 } ps run₁ →
      EntersBindings (env.extendGroup bs ps) ps bs run₁ t' b run' → b.func? = none →
      HaltsAt env t (.group bs body ty) run (.failed (.unhandled none))
        (run'.failing (.unhandled none) .absent)
  | unsolved {bs ts : List Binding} {body x : Expr} {ty : Ty} {ps : List Scheme} {error : UnifyError}
      {stop : Stop} {run run₁ run₂ run₃ run' : Run} :
      GroupTyped env bs run ps ts run₁ run₂ run₃ →
      (Queue.solveList run₃.store run₃.queue.toList).2 = some (error, x) →
      (refuse error (if x.isAbsent then .group bs body ty else x) : InferM Unit)
        (run₃.withStore (Queue.solveList run₃.store run₃.queue.toList).1) = .error stop run' →
      HaltsAt env t (.group bs body ty) run stop run'
  | ungeneralized {bs ts : List Binding} {body : Expr} {ty : Ty} {ps : List Scheme} {f : Fault}
      {run run₁ run₂ run₃ run' : Run} {notes : Array Event × NameSupply} :
      GroupTyped env bs run ps ts run₁ run₂ run₃ → solve.Yields run₃ () run' → ¬ env.Present →
      HaltsAt env t (.group bs body ty) run (.fault f) (run'.withNotes notes)
  | emptyBlock {ty : Ty} {run : Run} :
      HaltsAt env t (.block [] ty) run (.failed .emptyBlock) (run.failing .emptyBlock (.block [] ty))

/-- Inferring a node stops at the node itself or at a part that it comes to. -/
inductive Breaks : Env → Ty → Expr → Run → Stop → Run → Prop
  | here {env : Env} {t : Ty} {e : Expr} {run run' : Run} {stop : Stop} :
      HaltsAt env t e run stop run' → Breaks env t e run stop run'
  | inside {env env' : Env} {t t' : Ty} {e e' : Expr} {run run₁ run' : Run} {stop : Stop} :
      Enters env t e run env' t' e' run₁ → Breaks env' t' e' run₁ stop run' →
      Breaks env t e run stop run'

section

variable {env : Env} {t : Ty} {run : Run} {E : Stop → Run → Prop}

/-- Inferring the expression stops in one of the ways. -/
def Breaking (e : Expr) : Prop :=
  ∀ (env : Env) (t : Ty) (run : Run), (infer env t e).Stops (Breaks env t e run) run

/-- A part that is entered stops the whole. -/
theorem Breaking.enter {e e' : Expr} {env' : Env} {t' : Ty} {run₁ : Run} (h : Breaking e')
    (hin : Enters env t e run env' t' e' run₁) :
    (infer env' t' e').Stops (Breaks env t e run) run₁ :=
  (h env' t' run₁).imp fun _ _ => .inside hin

theorem unifyTypeArgs_enters {x : Expr} {as vs : List Ty} (hlen : as.length = vs.length)
    (h : ∀ a v run₁, EntersArgs as vs run a v run₁ → (InferM.unify a v x).Stops E run₁) :
    (unifyTypeArgs x as vs).Stops E run := by
  induction as generalizing vs run with
  | nil =>
    rw [unifyTypeArgs]
    exact stops_pure ()
  | cons a as ih =>
    cases vs with
    | nil => cases hlen
    | cons v vs =>
      rw [unifyTypeArgs]
      refine stops_bind.mpr ⟨h a v run .head, fun _ run₁ hu => ?_⟩
      obtain ⟨hn, rfl⟩ := yields_unify.mp hu
      exact ih (Nat.succ.inj hlen) fun a' v' run' hin => h a' v' run' (.tail hn hin)

theorem inferAll_enters {es : List Expr}
    (h : ∀ e run₁, EntersAll env t es run e run₁ → (infer env t e).Stops E run₁) :
    (inferAll env t es).Stops E run := by
  induction es generalizing run with
  | nil =>
    rw [inferAll]
    exact stops_pure []
  | cons e es ih =>
    rw [inferAll]
    refine stops_bind.mpr ⟨h e run .head, fun d run₁ hd => ?_⟩
    refine stops_bind.mpr ⟨ih fun e' run' hin => ?_, fun _ _ _ => stops_pure _⟩
    exact h e' run' (.tail hd hin)

theorem inferEach_enters {ts : List Ty} {es : List Expr} (hlen : ts.length = es.length)
    (h : ∀ t e run₁, EntersEach env ts es run t e run₁ → (infer env t e).Stops E run₁) :
    (inferEach env ts es).Stops E run := by
  induction es generalizing run ts with
  | nil =>
    rw [inferEach]
    exact stops_pure []
  | cons e es ih =>
    cases ts with
    | nil => cases hlen
    | cons t ts =>
      rw [inferEach]
      refine stops_bind.mpr ⟨h t e run .head, fun d run₁ hd => ?_⟩
      refine stops_bind.mpr ⟨ih (Nat.succ.inj hlen) fun t' e' run' hin => ?_, fun _ _ _ => stops_pure _⟩
      exact h t' e' run' (.tail hd hin)

theorem inferItems_enters {es : List Expr}
    (h : ∀ env' t' e run₁, EntersItems t env es run env' t' e run₁ →
      (infer env' t' e).Stops E run₁) : (inferItems env t es).Stops E run := by
  induction es generalizing env run with
  | nil =>
    rw [inferItems]
    exact stops_pure []
  | cons e es ih =>
    cases es with
    | nil =>
      rw [inferItems]
      exact stops_bind.mpr ⟨h env t e run .last, fun _ _ _ => stops_pure _⟩
    | cons f es =>
      rw [inferItems]
      · refine stops_bind.mpr ⟨stops_fresh, fun u run₁ hu => ?_⟩
        obtain ⟨rfl, rfl⟩ := yields_fresh.mp hu
        refine stops_bind.mpr ⟨h env _ e _ .head, fun d run₂ hd => ?_⟩
        refine stops_bind.mpr ⟨ih fun env' t' e' run' hin => ?_, fun _ _ _ => stops_pure _⟩
        exact h env' t' e' run' (.tail hd hin)
      · simp

theorem inferBindings_enters {ps : List Scheme} {bs : List Binding} (hlen : ps.length = bs.length)
    (h : ∀ t b run₁, EntersBindings env ps bs run t b run₁ →
      (inferBinding env t b).Stops E run₁) : (inferBindings env ps bs).Stops E run := by
  induction bs generalizing run ps with
  | nil =>
    rw [inferBindings]
    exact stops_pure []
  | cons b bs ih =>
    cases ps with
    | nil => cases hlen
    | cons p ps =>
      rw [inferBindings]
      refine stops_bind.mpr ⟨h p.body b run .head, fun d run₁ hd => ?_⟩
      refine stops_bind.mpr ⟨ih (Nat.succ.inj hlen) fun t' b' run' hin => ?_, fun _ _ _ => stops_pure _⟩
      exact h t' b' run' (.tail hd hin)

theorem infer_var_breaks (name : String) (typeArgs : Option (List Ty)) (ty : Ty) :
    Breaking (.var name typeArgs ty) := by
  intro env t run
  rw [infer]
  cases hl : env.lookup? name with
  | none => exact stops_fail.mpr (.here (.unbound hl))
  | some g? =>
    cases g? with
    | none => exact stops_throw.mpr (.here (.untyped hl))
    | some g =>
      refine stops_bind.mpr ⟨stops_instantiate g, fun r run₁ hi => ?_⟩
      obtain ⟨rfl, rfl⟩ := yields_instantiate.mp hi
      cases typeArgs with
      | none => exact stops_emit_pure
      | some args =>
        by_cases hlen : args.length = g.params.length
        · simp only [hlen, bne_self_eq_false, Bool.false_eq_true, if_false]
          refine stops_bind.mpr ⟨unifyTypeArgs_enters ?_ fun a v run₁ hin => ?_, fun _ _ _ => stops_emit_pure⟩
          · rw [hlen, length_freshList]
          · exact stops_unify.mpr fun e he stop run' hs => .here (.typeArgument hl hin he hs)
        · simp only [bne_iff_ne, ne_eq, hlen, not_false_eq_true, if_true]
          exact stops_bind.mpr ⟨stops_fail.mpr (.here (.arity hl hlen)), fun _ _ h =>
            absurd h not_yields_fail⟩

theorem infer_group_breaks {bs : List Binding} {body : Expr} (ty : Ty)
    (ihf : ∀ b ∈ bs, ∀ f, b.func? = some f → Breaking f) (ihb : Breaking body) :
    Breaking (.group bs body ty) := by
  intro env t run
  rw [infer]
  refine stops_bind.mpr ⟨stops_modify _, fun _ run₀ hm => ?_⟩
  obtain rfl := yields_modify.mp hm
  refine stops_get_bind.mpr (stops_bind.mpr ⟨placeholders_stops bs, fun ps run₁ hp => ?_⟩)
  have hplen := placeholders_length hp
  refine stops_bind.mpr ⟨inferBindings_enters hplen fun t' b run₂ hin => ?_, fun ts run₂ ht => ?_⟩
  · cases b with
    | missing name g =>
      rw [inferBinding]
      exact stops_fail.mpr (.here (.missing hp hin rfl))
    | fn name g params result fnBody fnTy =>
      exact inferBinding_stops rfl ((ihf _ hin.mem _ rfl).enter (.function hp hin rfl))
  refine stops_get_bind.mpr (stops_bind.mpr ⟨stops_report _, fun _ run₃ hlog => ?_⟩)
  have htyped : GroupTyped env bs run ps ts run₁ run₂ run₃ := ⟨hp, ht, yields_report.mp hlog⟩
  refine stops_bind.mpr ⟨stops_solveFor.mpr fun e x he stop run' hs => ?_, fun _ run₄ hs => ?_⟩
  · exact .here (.unsolved htyped he hs)
  have hsolved : solve.Yields run₃ () run₄ := yields_solve.mpr (yields_solveFor.mp hs)
  obtain ⟨htlen, hfn⟩ := inferBindings_isFn ht hplen
  refine stops_bind.mpr ⟨generalizeAll_stops hplen htlen hfn fun f notes hpres => ?_, ?_⟩
  · exact .here (.ungeneralized htyped hsolved hpres)
  rintro ⟨ds, outer⟩ run₅ hg
  obtain ⟨gs, notes, hga, rfl, rfl⟩ := generalizeAll_yields hplen htlen hfn hg
  exact stops_bind.mpr ⟨ihb.enter (.groupBody htyped hsolved hga), fun _ _ _ => stops_pure _⟩

/-- Whatever stops inference, it stops at the node itself or at a part that it comes to. -/
theorem infer_breaks (e : Expr) : Breaking e := by
  induction e with
  | absent =>
    intro env t run
    rw [infer]
    exact stops_fail.mpr (.here .absent)
  | other kind =>
    intro env t run
    rw [infer]
    exact stops_fail.mpr (.here .other)
  | int value ty =>
    intro env t run
    rw [infer]
    exact stops_emit_pure
  | str value ty =>
    intro env t run
    rw [infer]
    exact stops_emit_pure
  | var name typeArgs ty => exact infer_var_breaks name typeArgs ty
  | func params result body ty ih =>
    intro env t run
    rw [infer]
    refine stops_bind.mpr ⟨openParams_stops params, ?_⟩
    rintro ⟨ps, inner⟩ run₁ hp
    refine stops_bind.mpr ⟨stops_orFresh result, fun r run₂ hr => ?_⟩
    exact stops_bind.mpr ⟨ih.enter (.body hp hr), fun _ _ _ => closeFunc_stops _ _ _⟩
  | call callee args ty ihf iha =>
    intro env t run
    rw [infer]
    refine stops_bind.mpr ⟨stops_freshList _, fun ts run₁ ht => ?_⟩
    obtain ⟨rfl, rfl⟩ := yields_freshList.mp ht
    refine stops_bind.mpr ⟨ihf.enter .callee, fun f run₂ hf => stops_bind.mpr ⟨?_, fun _ _ _ => stops_pure _⟩⟩
    exact inferEach_enters (length_freshList _ _) fun _ e _ hin => (iha e hin.mem).enter (.arg hf hin)
  | letIn name annot value body ty ihv ihb =>
    intro env t run
    rw [infer]
    refine stops_bind.mpr ⟨stops_orFresh annot, fun a run₁ ha => ?_⟩
    refine stops_bind.mpr ⟨ihv.enter (.value ha), fun v run₂ hv => ?_⟩
    cases hab : body.isAbsent with
    | true => exact stops_emit_pure
    | false => exact stops_bind.mpr ⟨ihb.enter (.letBody ha hv hab), fun _ _ _ => stops_pure _⟩
  | group bs body ty ihf ihb => exact infer_group_breaks ty ihf ihb
  | array item items ty ih =>
    intro env t run
    rw [infer]
    refine stops_bind.mpr ⟨stops_orFresh item, fun a run₁ ha => ?_⟩
    refine stops_bind.mpr ⟨?_, fun _ _ _ => stops_emit_pure⟩
    exact inferAll_enters fun e _ hin => (ih e hin.mem).enter (.element ha hin)
  | seq effect value ty ihe ihv =>
    intro env t run
    rw [infer]
    refine stops_bind.mpr ⟨stops_fresh, fun u run₁ hu => ?_⟩
    obtain ⟨rfl, rfl⟩ := yields_fresh.mp hu
    refine stops_bind.mpr ⟨ihe.enter .effect, fun d run₂ hd => ?_⟩
    exact stops_bind.mpr ⟨ihv.enter (.result hd), fun _ _ _ => stops_pure _⟩
  | block items ty ih =>
    intro env t run
    rw [infer]
    cases items with
    | nil =>
      exact stops_bind.mpr ⟨stops_fail.mpr (.here .emptyBlock), fun _ _ h => absurd h not_yields_fail⟩
    | cons e es =>
      refine stops_bind.mpr ⟨?_, fun _ _ _ => stops_pure _⟩
      exact inferItems_enters fun _ _ e' _ hin => (ih e' hin.mem).enter (.item hin)

/-- What holds of every stop: it holds where a node stops by itself, under an invariant that goes from a node
to its parts. -/
theorem infer_stops_of {I : Env → Ty → Expr → Run → Prop}
    (hparts : ∀ {env env' t t' e e' run run'}, I env t e run → Enters env t e run env' t' e' run' →
      I env' t' e' run')
    (hnodes : ∀ {env t e run stop run'}, I env t e run → HaltsAt env t e run stop run' → E stop run')
    {e : Expr} (h : I env t e run) : (infer env t e).Stops E run := by
  refine (infer_breaks e env t run).imp fun stop run' hb => ?_
  induction hb with
  | here hat => exact hnodes h hat
  | inside hin _ ih => exact ih (hparts h hin)

/-! ## Programs -/

/-- A whole program is stopped where its root is, or where the last equations are solved. -/
theorem inferRoot_stops_of {root : Expr}
    (h : (infer env (.var run.store.size) root).Stops E (run.alloc 1))
    (hs : ∀ typed run₁, (infer env (.var run.store.size) root).Yields (run.alloc 1) typed run₁ →
      solve.Stops E run₁) : (inferRoot env root).Stops E run := by
  rw [inferRoot]
  refine stops_bind.mpr ⟨stops_fresh, fun t run₁ ht => ?_⟩
  obtain ⟨rfl, rfl⟩ := yields_fresh.mp ht
  refine stops_bind.mpr ⟨h, fun typed run₂ htyped => ?_⟩
  refine stops_bind.mpr ⟨hs typed run₂ htyped, fun _ run₃ _ => stops_get_bind.mpr ?_⟩
  refine stops_bind.mpr ⟨stops_lift.mpr fun f hf => ?_, fun _ _ _ => ?_⟩
  · -- what was inferred can be retyped
    have hresolve : ∀ t, Traversals.resolve run₃.store t = .ok (run₃.store.resolve t) := fun _ => rfl
    rw [(infer_formed root htyped).retype hresolve] at hf
    cases hf
  · refine stops_bind.mpr ⟨stops_lift.mpr fun f hf => ?_, fun _ _ _ => stops_pure _⟩
    cases hf

/-- What follows for a call from the ways in which it is stopped and the states in which it ends well, for
all four calls: they infer the program, and two of them close its type. -/
theorem Context.calls_of {Y : Run → Prop} {c : Context} {e : Expr} {env : Option Env}
    (P : ∀ {α : Type}, Outcome α × Context → Prop)
    (hcall : ∀ {α : Type} {action : InferM α}, action.Stops E c.reset.run →
      (∀ a run, action.Yields c.reset.run a run → Y run) → P (c.call e action))
    (hroot : (inferRoot (env.getD .empty) e).Stops E c.reset.run)
    (hends : ∀ r run, (inferRoot (env.getD .empty) e).Yields c.reset.run r run → Y run)
    (hclose : ∀ t run, Y run → (close (env.getD .empty) t .absent).Stops E run)
    (hnames : ∀ {run} names, Y run → Y { run with names }) :
    P (c.infer e env) ∧ P (c.inferGeneric e env) ∧ P (c.annotate e env) ∧ P (c.annotateGeneric e env) := by
  have hplain : ∀ {α : Type} (f : Expr × Ty → α),
      P (c.call e do return f (← inferRoot (env.getD .empty) e)) := by
    intro α f
    refine hcall (stops_bind.mpr ⟨hroot, fun _ _ _ => stops_pure _⟩) fun a run h => ?_
    obtain ⟨r, run₁, hr, h⟩ := yields_bind.mp h
    obtain ⟨_, rfl⟩ := yields_pure.mp h
    exact hends r _ hr
  have hclosed : ∀ {α : Type} (f : Expr × Ty → Scheme → α), P (c.call e do
      let r ← inferRoot (env.getD .empty) e
      let g ← close (env.getD .empty) r.2 .absent
      return f r g.1) := by
    intro α f
    refine hcall (stops_bind.mpr ⟨hroot, fun r run₁ hr => stops_bind.mpr
      ⟨hclose _ _ (hends r run₁ hr), fun _ _ _ => stops_pure _⟩⟩) fun a run h => ?_
    obtain ⟨r, run₁, hr, h⟩ := yields_bind.mp h
    obtain ⟨g, run₂, hg, h⟩ := yields_bind.mp h
    obtain ⟨_, _, rfl⟩ := yields_close.mp hg
    obtain ⟨_, rfl⟩ := yields_pure.mp h
    exact hnames _ (hends r run₁ hr)
  exact ⟨hplain Prod.snd, hclosed fun _ g => g, hplain Prod.fst, hclosed fun r g => (r.1, g)⟩

end

end Polytype
