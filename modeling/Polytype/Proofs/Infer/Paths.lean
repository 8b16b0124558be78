import Mathlib
import Polytype.Proofs.Infer.Completion
import Polytype.Proofs.Infer.Stopping

/-!
# What inference does to a run

While it goes on, inference does five things to the state of a run: it allocates variables, queues an
equation for a node of the program, unifies two types, solves what is pending, and takes notes
(`Run.Step`). What it does for an expression is a path of such steps (`infer_path`), and so is what it does
before it comes to a part (`Enters.path`). So an invariant of runs is proved once for each kind of step. A
path keeps the bindings free of cycles, keeps every equation that waits at a node of the program, and does
not touch the error and the expression to blame.
-/

namespace Polytype

open InferM

/-! ## Nodes of a program -/

/-- An expression is a node of a program, up to types. -/
def Expr.Within (x root : Expr) : Prop := ∃ n, .ok n ∈ root.visits ∧ x.erase = n.erase

/-- The nodes of an expression are nodes of a program. -/
abbrev Expr.PartOf (e root : Expr) : Prop := e.Every fun n => .ok n ∈ root.visits

theorem Expr.within_of_retypes {x n root : Expr} (hn : .ok n ∈ root.visits) (h : x.Retypes n) :
    x.Within root :=
  ⟨n, hn, h.erase⟩

/-- Each equation that waits belongs to a node of a program. -/
def Queue.Within (q : Queue) (root : Expr) : Prop := ∀ c ∈ q.toList, c.expr.Within root

/-! ## Steps -/

/-- What inference of a part of a program does to a run while it goes on. -/
inductive Run.Step (root : Expr) : Run → Run → Prop
  | alloc {run : Run} (n : Nat) : Step root run (run.alloc n)
  | emit {run : Run} {x : Expr} (a b : Ty) : x.Within root → Step root run (run.emit a b x)
  | unify {run : Run} (a b : Ty) : Step root run (run.withStore (run.store.unify a b).1)
  | solve {run run' : Run} : InferM.solve.Yields run () run' → Step root run run'
  | note {run : Run} (log : Array Event) (names : NameSupply) (groups : Nat) :
      Step root run { run with log, names, groups }

/-- Steps in a row. -/
abbrev Run.Path (root : Expr) : Run → Run → Prop := Relation.ReflTransGen (Run.Step root)

namespace Run

variable {root : Expr} {run run' : Run}

theorem Step.acyclic (h : Step root run run') (hs : run.store.Acyclic) : run'.store.Acyclic := by
  cases h with
  | alloc n => exact hs.freshList n
  | emit a b _ => exact hs
  | unify a b => exact Store.unify_acyclic hs a b
  | solve hsolve =>
    obtain ⟨_, rfl⟩ := yields_solve.mp hsolve
    exact (Queue.solveList_acyclic hs _).2
  | note log names groups => exact hs

/-- A path keeps bindings free of cycles. -/
theorem Path.acyclic (h : Path root run run') (hs : run.store.Acyclic) : run'.store.Acyclic := by
  induction h with
  | refl => exact hs
  | tail _ hstep ih => exact hstep.acyclic ih

theorem Step.within (h : Step root run run') (hq : run.queue.Within root) : run'.queue.Within root := by
  cases h with
  | alloc n => exact hq
  | emit a b hx =>
    intro c hc
    rcases mem_queue_emit.mp hc with hc | rfl
    · exact hq c hc
    · exact hx
  | unify a b => exact hq
  | solve hsolve =>
    obtain ⟨_, rfl⟩ := yields_solve.mp hsolve
    intro c hc
    simp at hc
  | note log names groups => exact hq

/-- A path keeps the equations that wait at nodes of the program. -/
theorem Path.within (h : Path root run run') (hq : run.queue.Within root) : run'.queue.Within root := by
  induction h with
  | refl => exact hq
  | tail _ hstep ih => exact hstep.within ih

theorem Step.blame (h : Step root run run') : run'.error = run.error ∧ run'.invalid = run.invalid := by
  cases h with
  | solve hsolve =>
    obtain ⟨_, rfl⟩ := yields_solve.mp hsolve
    exact ⟨rfl, rfl⟩
  | _ => exact ⟨rfl, rfl⟩

/-- A path leaves the error and the expression to blame as they are. -/
theorem Path.blame (h : Path root run run') : run'.error = run.error ∧ run'.invalid = run.invalid := by
  induction h with
  | refl => exact ⟨rfl, rfl⟩
  | tail _ hstep ih => exact ⟨hstep.blame.1.trans ih.1, hstep.blame.2.trans ih.2⟩

end Run

/-! ## Parts of inference -/

section

variable {root : Expr} {env : Env} {t : Ty} {run run' : Run}

theorem orFresh_path {a : Ty} (h : (orFresh a).Yields run t run') : run.Path root run' := by
  rcases yields_orFresh.mp h with ⟨_, _, rfl⟩ | ⟨_, _, rfl⟩
  · exact .single (.alloc 1)
  · exact .refl

theorem openParams_path {ps qs : List Param} {inner : Env}
    (h : (openParams env ps).Yields run (qs, inner) run') : run.Path root run' := by
  induction ps generalizing env run qs inner with
  | nil =>
    obtain ⟨⟨⟩, rfl⟩ := openParams_nil.mp h
    exact .refl
  | cons p ps ih =>
    obtain ⟨t, run₁, qs, inner, ht, hrest, ⟨⟩⟩ := openParams_cons.mp h
    exact (orFresh_path ht).trans (ih hrest)

theorem unifyTypeArgs_path {x : Expr} {as vs : List Ty} {u : Unit} (hlen : as.length ≤ vs.length)
    (h : (unifyTypeArgs x as vs).Yields run u run') : run.Path root run' := by
  induction as generalizing vs run with
  | nil =>
    obtain rfl := unifyTypeArgs_nil.mp h
    exact .refl
  | cons a as ih =>
    cases vs with
    | nil => simp at hlen
    | cons v vs =>
      obtain ⟨_, hrest⟩ := unifyTypeArgs_cons.mp h
      exact .head (.unify a v) (ih (Nat.le_of_succ_le_succ hlen) hrest)

theorem placeholders_path {bs : List Binding} {ps : List Scheme}
    (h : (placeholders bs).Yields run ps run') : run.Path root run' := by
  induction bs generalizing run ps with
  | nil =>
    obtain ⟨rfl, rfl⟩ := placeholders_nil.mp h
    exact .refl
  | cons b bs ih =>
    cases hs : b.scheme with
    | some g =>
      obtain ⟨qs, hrest, rfl⟩ := (placeholders_given hs).mp h
      exact ih hrest
    | none =>
      obtain ⟨qs, hrest, rfl⟩ := (placeholders_open hs).mp h
      exact .head (.alloc 1) (ih hrest)

/-- Inferring the expression as a part of the program is a path. -/
def Pathed (root e : Expr) : Prop :=
  ∀ {env : Env} {t : Ty} {run run' : Run} {d : Expr}, e.PartOf root →
    (infer env t e).Yields run d run' → run.Path root run'

theorem inferAll_path {es ds : List Expr} (ih : ∀ e ∈ es, Pathed root e)
    (hes : ∀ e ∈ es, e.PartOf root) (h : (inferAll env t es).Yields run ds run') :
    run.Path root run' := by
  induction es generalizing run ds with
  | nil =>
    obtain ⟨rfl, rfl⟩ := inferAll_nil.mp h
    exact .refl
  | cons e es ihs =>
    rw [List.forall_mem_cons] at ih hes
    obtain ⟨d, run₁, ds, hd, hds, rfl⟩ := inferAll_cons.mp h
    exact (ih.1 hes.1 hd).trans (ihs ih.2 hes.2 hds)

theorem inferEach_path {ts : List Ty} {es ds : List Expr} (ih : ∀ e ∈ es, Pathed root e)
    (hes : ∀ e ∈ es, e.PartOf root) (hlen : ts.length = es.length)
    (h : (inferEach env ts es).Yields run ds run') : run.Path root run' := by
  induction es generalizing run ts ds with
  | nil =>
    obtain ⟨rfl, rfl⟩ := inferEach_nil.mp h
    exact .refl
  | cons e es ihs =>
    cases ts with
    | nil => cases hlen
    | cons t ts =>
      rw [List.forall_mem_cons] at ih hes
      obtain ⟨d, run₁, ds, hd, hds, rfl⟩ := inferEach_cons.mp h
      exact (ih.1 hes.1 hd).trans (ihs ih.2 hes.2 (Nat.succ.inj hlen) hds)

theorem inferItems_path {es ds : List Expr} (ih : ∀ e ∈ es, Pathed root e)
    (hes : ∀ e ∈ es, e.PartOf root) (hne : es ≠ []) (h : (inferItems env t es).Yields run ds run') :
    run.Path root run' := by
  induction es generalizing env run ds with
  | nil => exact absurd rfl hne
  | cons e es ihs =>
    rw [List.forall_mem_cons] at ih hes
    cases es with
    | nil =>
      obtain ⟨d, hd, rfl⟩ := inferItems_last.mp h
      exact ih.1 hes.1 hd
    | cons f es =>
      obtain ⟨d, run₁, ds, hd, hds, rfl⟩ := inferItems_cons.mp h
      exact .head (.alloc 1) ((ih.1 hes.1 hd).trans (ihs ih.2 hes.2 (by simp) hds))

theorem inferBinding_path {b d : Binding} (ih : ∀ f, b.func? = some f → Pathed root f)
    (hb : ∀ f, b.func? = some f → f.PartOf root) (h : (inferBinding env t b).Yields run d run') :
    run.Path root run' := by
  obtain ⟨name, g, params, result, body, ty, qs, r, c, rfl, hf, rfl⟩ := inferBinding_yields.mp h
  exact ih _ rfl (hb _ rfl) hf

theorem inferBindings_path {bs ts : List Binding} {ps : List Scheme}
    (ih : ∀ b ∈ bs, ∀ f, b.func? = some f → Pathed root f)
    (hbs : ∀ b ∈ bs, ∀ f, b.func? = some f → f.PartOf root) (hlen : ps.length = bs.length)
    (h : (inferBindings env ps bs).Yields run ts run') : run.Path root run' := by
  induction bs generalizing run ps ts with
  | nil =>
    obtain ⟨rfl, rfl⟩ := inferBindings_nil.mp h
    exact .refl
  | cons b bs ihs =>
    cases ps with
    | nil => cases hlen
    | cons p ps =>
      rw [List.forall_mem_cons] at ih hbs
      obtain ⟨d, run₁, ds, hd, hds, rfl⟩ := inferBindings_cons.mp h
      exact (inferBinding_path ih.1 hbs.1 hd).trans (ihs ih.2 hbs.2 (Nat.succ.inj hlen) hds)

/-- A group opens with a path, after it has been counted. -/
theorem group_path {bs : List Binding} {ps : List Scheme}
    (h : (placeholders bs).Yields { run with groups := run.groups + 1 } ps run') : run.Path root run' :=
  .head (.note run.log run.names (run.groups + 1)) (placeholders_path h)

theorem GroupTyped.path {bs ts : List Binding} {ps : List Scheme} {run₁ run₂ run₃ : Run}
    (ih : ∀ b ∈ bs, ∀ f, b.func? = some f → Pathed root f)
    (hbs : ∀ b ∈ bs, ∀ f, b.func? = some f → f.PartOf root)
    (h : GroupTyped env bs run ps ts run₁ run₂ run₃) : run.Path root run₃ := by
  have htyped := inferBindings_path ih hbs (placeholders_length h.placed) h.inferred
  refine ((group_path h.placed).trans htyped).tail ?_
  rw [h.reported]
  exact .note _ run₂.names run₂.groups

/-- Inference of an expression is a path. -/
theorem infer_path (e : Expr) : Pathed root e := by
  induction e with
  | absent => exact fun _ h => absurd h not_infer_absent
  | other kind => exact fun _ h => absurd h not_infer_other
  | int value ty =>
    intro env t run run' d hpart h
    obtain ⟨rfl, rfl⟩ := infer_int.mp h
    exact .single (.emit _ _ ⟨_, Expr.every_int.mp hpart, rfl⟩)
  | str value ty =>
    intro env t run run' d hpart h
    obtain ⟨rfl, rfl⟩ := infer_str.mp h
    exact .single (.emit _ _ ⟨_, Expr.every_str.mp hpart, rfl⟩)
  | var name typeArgs ty =>
    intro env t run run' d hpart h
    obtain ⟨g, run₁, _, hlen, hargs, rfl, rfl⟩ := infer_var.mp h
    have hle : (typeArgs.getD []).length ≤ (Store.freshList g.params.length run.store).1.length := by
      rw [length_freshList]
      cases typeArgs with
      | none => exact Nat.zero_le _
      | some args => exact (hlen args rfl).le
    exact .head (.alloc _) ((unifyTypeArgs_path hle hargs).tail
      (.emit _ _ ⟨_, Expr.every_var.mp hpart, rfl⟩))
  | func params result body ty ih =>
    intro env t run run' d hpart h
    obtain ⟨ps, inner, run₁, r, run₂, b, run₃, hp, hr, hb, rfl, rfl⟩ := infer_func.mp h
    obtain ⟨hn, hbody⟩ := Expr.every_func.mp hpart
    -- the node that is queued is built anew, and differs from the program's only in types
    have htyped : (Expr.func ps r b t).Retypes (.func params result body ty) :=
      .func (openParams_erase hp) (infer_retypes body hb)
    exact (((openParams_path hp).trans (orFresh_path hr)).trans (ih hbody hb)).tail
      (.emit _ _ (Expr.within_of_retypes hn htyped))
  | call callee args ty ihf iha =>
    intro env t run run' d hpart h
    obtain ⟨f, run₁, es, hf, hes, rfl⟩ := infer_call.mp h
    obtain ⟨_, hcallee, hargs⟩ := Expr.every_call.mp hpart
    -- a call queues nothing of its own: what it expects is in the equations of its parts
    exact .head (.alloc _) ((ihf hcallee hf).trans
      (inferEach_path iha hargs (length_freshList _ _) hes))
  | letIn name annot value body ty ihv ihb =>
    intro env t run run' d hpart h
    obtain ⟨hn, hvalue, hbody⟩ := Expr.every_letIn.mp hpart
    cases hab : body.isAbsent with
    | true =>
      obtain rfl := Expr.isAbsent_iff.mp hab
      obtain ⟨a, run₁, v, run₂, ha, hv, rfl, rfl⟩ := infer_let_alone.mp h
      refine ((orFresh_path ha).trans (ihv hvalue hv)).tail (.emit _ _ ⟨_, hn, ?_⟩)
      simp only [Expr.erase, (infer_retypes value hv).erase]
    | false =>
      obtain ⟨a, run₁, v, run₂, b, ha, hv, hb, rfl⟩ := (infer_let hab).mp h
      exact ((orFresh_path ha).trans (ihv hvalue hv)).trans (ihb hbody hb)
  | group bs body ty ihf ihb =>
    intro env t run run' d hpart h
    obtain ⟨ps, run₁, ts, run₂, run₃, gs, ds, notes, b, hp, ht, hs, _, hb, rfl⟩ := infer_group_cases h
    obtain ⟨_, hfuncs, hbody⟩ := Expr.every_group.mp hpart
    -- the equations of enclosing nodes are solved here as well
    have hsolved := (GroupTyped.path ihf hfuncs ⟨hp, ht, rfl⟩).tail (.solve hs)
    exact (hsolved.tail (.note notes.1 notes.2 run₃.groups)).trans (ihb hbody hb)
  | array item items ty ih =>
    intro env t run run' d hpart h
    obtain ⟨a, run₁, es, run₂, ha, hes, rfl, rfl⟩ := infer_array.mp h
    obtain ⟨hn, hitems⟩ := Expr.every_array.mp hpart
    obtain ⟨_, herase⟩ := Expr.Retypes.lists (inferAll_retypes (fun e _ => infer_retypes e) hes)
    refine ((orFresh_path ha).trans (inferAll_path ih hitems hes)).tail (.emit _ _ ⟨_, hn, ?_⟩)
    rw [Expr.erase, Expr.erase, herase]
  | seq effect value ty ihe ihv =>
    intro env t run run' d hpart h
    obtain ⟨f, run₁, v, hf, hv, rfl⟩ := infer_seq.mp h
    obtain ⟨_, heffect, hvalue⟩ := Expr.every_seq.mp hpart
    exact .head (.alloc 1) ((ihe heffect hf).trans (ihv hvalue hv))
  | block items ty ih =>
    intro env t run run' d hpart h
    obtain ⟨hne, es, hes, rfl⟩ := infer_block.mp h
    exact inferItems_path ih (Expr.every_block.mp hpart).2 hne hes

/-! ## Where parts begin -/

theorem EntersArgs.path {as vs : List Ty} {a v : Ty} (h : EntersArgs as vs run a v run') :
    run.Path root run' := by
  induction h with
  | head => exact .refl
  | tail _ _ ih => exact .head (.unify _ _) ih

theorem EntersAll.path {es : List Expr} {e : Expr} (h : EntersAll env t es run e run')
    (hes : ∀ e ∈ es, e.PartOf root) : run.Path root run' := by
  induction h with
  | head => exact .refl
  | tail hd _ ih =>
    rw [List.forall_mem_cons] at hes
    exact (infer_path _ hes.1 hd).trans (ih hes.2)

theorem EntersEach.path {ts : List Ty} {es : List Expr} {e : Expr}
    (h : EntersEach env ts es run t e run') (hes : ∀ e ∈ es, e.PartOf root) : run.Path root run' := by
  induction h with
  | head => exact .refl
  | tail hd _ ih =>
    rw [List.forall_mem_cons] at hes
    exact (infer_path _ hes.1 hd).trans (ih hes.2)

theorem EntersItems.path {env' : Env} {t' : Ty} {es : List Expr} {e : Expr}
    (h : EntersItems t env es run env' t' e run') (hes : ∀ e ∈ es, e.PartOf root) :
    run.Path root run' := by
  induction h with
  | last => exact .refl
  | head => exact .single (.alloc 1)
  | tail hd _ ih =>
    rw [List.forall_mem_cons] at hes
    exact .head (.alloc 1) ((infer_path _ hes.1 hd).trans (ih hes.2))

theorem EntersBindings.path {ps : List Scheme} {bs : List Binding} {b : Binding}
    (h : EntersBindings env ps bs run t b run')
    (hbs : ∀ b ∈ bs, ∀ f, b.func? = some f → f.PartOf root) : run.Path root run' := by
  induction h with
  | head => exact .refl
  | tail hd _ ih =>
    rw [List.forall_mem_cons] at hbs
    exact (inferBinding_path (fun f _ => infer_path f) hbs.1 hd).trans (ih hbs.2)

/-- Inference comes to a part of the program by a path. -/
theorem Enters.path {env' : Env} {t' : Ty} {e e' : Expr} (h : Enters env t e run env' t' e' run')
    (he : e.PartOf root) : run.Path root run' := by
  cases h with
  | body hp hr => exact (openParams_path hp).trans (orFresh_path hr)
  | callee => exact .single (.alloc _)
  | arg hf hin =>
    obtain ⟨_, hcallee, hargs⟩ := Expr.every_call.mp he
    exact .head (.alloc _) ((infer_path _ hcallee hf).trans (hin.path hargs))
  | value ha => exact orFresh_path ha
  | letBody ha hv _ => exact (orFresh_path ha).trans (infer_path _ (Expr.every_letIn.mp he).2.1 hv)
  | function hp hin _ => exact (group_path hp).trans (hin.path (Expr.every_group.mp he).2.1)
  | groupBody hg hs _ =>
    have htyped := hg.path (fun _ _ f _ => infer_path f) (Expr.every_group.mp he).2.1
    exact (htyped.tail (.solve hs)).tail (.note _ _ _)
  | element ha hin => exact (orFresh_path ha).trans (hin.path (Expr.every_array.mp he).2)
  | effect => exact .single (.alloc 1)
  | result hd => exact .head (.alloc 1) (infer_path _ (Expr.every_seq.mp he).2.1 hd)
  | item hin => exact hin.path (Expr.every_block.mp he).2

end

end Polytype
