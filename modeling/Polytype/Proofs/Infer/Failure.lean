import Mathlib
import Polytype.Proofs.Expr.Formed
import Polytype.Proofs.Infer.Invariant
import Polytype.Proofs.Infer.Stopping

/-!
# How inference fails

`infer_stops` says what a well-formed program can be refused for (`InferError.Proper`), in an environment
in which every name that is bound has a type. The run is in order where a part of the program is begun
(`Enters.ready`), so that no type mentions a variable that the store does not own.
-/

namespace Polytype

open InferM

/-! ## Proper errors -/

/-- The errors of well-formed programs. -/
inductive InferError.Proper : InferError → Prop
  | mismatch (expected actual : Ty) : Proper (.unify (.mismatch expected actual))
  | infinite (id : Int) (t : Ty) : Proper (.unify (.infinite id t))
  | unbound (name : String) : Proper (.unbound name)
  | arity (name : String) (expected actual : Nat) : Proper (.arity name expected actual)
  | emptyBlock : Proper .emptyBlock

/-- A run is stopped by an error of a well-formed program. -/
def Stop.Proper : Stop → Run → Prop
  | failed e, _ => e.Proper
  | fault _, _ => False

/-- Types over the store's own variables are refused because they do not agree. -/
theorem InferError.Proper.of_unify {s : Store} (hs : s.Acyclic) (ho : s.Over .whole) {a b : Ty}
    (ha : a.Over .whole s.size) (hb : b.Over .whole s.size) {e : UnifyError}
    (h : (s.unify a b).2 = some e) : (InferError.unify e).Proper := by
  cases e with
  | mismatch a b => exact .mismatch a b
  | infinite i t => exact .infinite i t
  | foreign i => exact absurd h (Store.unify_ne_foreign not_false hs ho ha hb i)
  | broken f => exact absurd h (Store.unify_ne_broken hs a b f)

theorem InferError.Proper.of_solveList {s : Store} (hs : s.Acyclic) (ho : s.Over .whole)
    {cs : List Constraint} (hc : ∀ c ∈ cs, c.Over .whole s.size) {e : UnifyError} {x : Expr}
    (h : (Queue.solveList s cs).2 = some (e, x)) : (InferError.unify e).Proper := by
  obtain ⟨before, c, after, rfl, _, _, hfails, _⟩ := Queue.solveList_stops h
  obtain ⟨hext, hacyclic⟩ := Queue.solveList_acyclic hs before
  have hlast : c.Over .whole (Queue.solveList s before).1.size := by
    rw [hext.size]
    exact hc c (by simp)
  exact .of_unify hacyclic (Queue.solveList_over hs ho fun d hd => hc d (by simp [hd])) hlast.1 hlast.2
    hfails

/-- What is refused with a proper error stops a run properly. -/
theorem refuse_stops {e : UnifyError} {x : Expr} {run : Run} (h : (InferError.unify e).Proper) :
    (refuse e x : InferM Unit).Stops Stop.Proper run := by
  refine stops_refuse ?_ fun _ => h
  rintro f rfl
  cases h

/-- A run in order, with an environment that binds no name to no type and a type expected of what is
inferred next, all over the store's variables. -/
structure Run.Ready (run : Run) (env : Env) (x : Ty) : Prop where
  wf : run.WF .whole
  scope : env.Over .whole run.store.size
  present : env.Present
  expected : x.Over .whole run.store.size

section

variable {run run' : Run} {env : Env} {x : Ty}

namespace Run.Ready

theorem lead (h : run.Ready env x) (hl : run.Leads .whole run') : run'.Ready env x :=
  ⟨hl.wf, h.scope.mono hl.size, h.present, h.expected.mono hl.size⟩

theorem alloc (h : run.Ready env x) (n : Nat) : (run.alloc n).Ready env x := h.lead (.alloc h.wf n)

theorem expect (h : run.Ready env x) {y : Ty} (hy : y.Over .whole run.store.size) :
    run.Ready env y :=
  ⟨h.wf, h.scope, h.present, hy⟩

/-- A function is expected that takes new variables. -/
theorem call (h : run.Ready env x) (n : Nat) :
    (run.alloc n).Ready env (.function (Store.freshList n run.store).1 x) :=
  (h.alloc n).expect (.function (over_freshList run n) (h.alloc n).expected)

theorem declare (h : run.Ready env x) {t : Ty} (ht : t.Over .whole run.store.size) (name : String) :
    run.Ready (env.declare name t) x :=
  ⟨h.wf, h.scope.declare (.ofTy ht), h.present.extend name (.mono t), h.expected⟩

theorem orFresh (h : run.Ready env x) {a t : Ty} (ht : (orFresh a).Yields run t run')
    (ha : a ≠ .absent → a.Over .whole 0) : run'.Ready env x ∧ t.Over .whole run'.store.size := by
  obtain ⟨hl, hto⟩ := orFresh_leads ht h.wf ha
  exact ⟨h.lead hl, hto⟩

theorem openParams {ps qs : List Param} {inner : Env} (h : run.Ready env x)
    (hp : (openParams env ps).Yields run (qs, inner) run')
    (ha : ∀ p ∈ ps, p.ty ≠ .absent → p.ty.Over .whole 0) : run'.Ready inner x := by
  induction ps generalizing env run qs inner with
  | nil =>
    obtain ⟨⟨⟩, rfl⟩ := openParams_nil.mp hp
    exact h
  | cons p ps ih =>
    rw [List.forall_mem_cons] at ha
    obtain ⟨t, run₁, qs, inner, ht, hrest, ⟨⟩⟩ := openParams_cons.mp hp
    obtain ⟨hr, hto⟩ := h.orFresh ht ha.1
    exact ih (hr.declare hto p.name) hrest ha.2

/-- Inferring an expression leaves a run ready for what comes next. -/
theorem infer (h : run.Ready env x) {e d : Expr} (he : e.Over .whole)
    (hd : (infer env x e).Yields run d run') : run.Leads .whole run' ∧ run'.Ready env x := by
  have hl := (infer_leads .whole e hd h.wf h.scope h.expected he).1
  exact ⟨hl, h.lead hl⟩

end Run.Ready

/-! ## Parts -/

theorem EntersArgs.over {as vs : List Ty} {a v : Ty} (h : EntersArgs as vs run a v run')
    (hr : run.WF .whole) (ha : ∀ a ∈ as, a.Over .whole 0)
    (hv : ∀ v ∈ vs, v.Over .whole run.store.size) :
    run'.WF .whole ∧ a.Over .whole run'.store.size ∧ v.Over .whole run'.store.size := by
  induction h with
  | head =>
    rw [List.forall_mem_cons] at ha hv
    exact ⟨hr, ha.1.mono (Nat.zero_le _), hv.1⟩
  | tail hn _ ih =>
    rw [List.forall_mem_cons] at ha hv
    have hl := Run.Leads.unify hr (ha.1.mono (Nat.zero_le _)) hv.1 hn
    exact ih hl.wf ha.2 fun w hw => (hv.2 w hw).mono hl.size

theorem EntersAll.ready {es : List Expr} {e : Expr} (h : EntersAll env x es run e run')
    (hr : run.Ready env x) (hes : ∀ e ∈ es, e.Over .whole) : run'.Ready env x := by
  induction h with
  | head => exact hr
  | tail hd _ ih =>
    rw [List.forall_mem_cons] at hes
    exact ih (hr.infer hes.1 hd).2 hes.2

theorem EntersEach.ready {ts : List Ty} {es : List Expr} {t : Ty} {e : Expr}
    (h : EntersEach env ts es run t e run') (hr : run.Ready env x)
    (ht : ∀ t ∈ ts, t.Over .whole run.store.size) (hes : ∀ e ∈ es, e.Over .whole) :
    run'.Ready env t := by
  induction h with
  | head => exact hr.expect (ht _ List.mem_cons_self)
  | tail hd _ ih =>
    rw [List.forall_mem_cons] at ht hes
    have hl := ((hr.expect ht.1).infer hes.1 hd).1
    exact ih (hr.lead hl) (fun u hu => (ht.2 u hu).mono hl.size) hes.2

theorem EntersItems.ready {env' : Env} {es : List Expr} {t : Ty} {e : Expr}
    (h : EntersItems x env es run env' t e run') (hr : run.Ready env x)
    (hes : ∀ e ∈ es, e.Over .whole) : run'.Ready env' t := by
  induction h with
  | last => exact hr
  | @head _ _ _ _ run => exact (hr.alloc 1).expect (over_fresh run)
  | @tail env _ _ e _ d _ _ run run₁ _ hd _ ih =>
    rw [List.forall_mem_cons] at hes
    have hitem := (hr.alloc 1).expect (over_fresh run)
    obtain ⟨hl, hafter⟩ := infer_leads .whole e hd hitem.wf hitem.scope hitem.expected hes.1
    have hnext := (hr.alloc 1).lead hl
    exact ih ⟨hnext.wf, hafter env hnext.scope, hnext.present.after d, hnext.expected⟩ hes.2

theorem EntersBindings.ready {ps : List Scheme} {bs : List Binding} {t : Ty} {b : Binding}
    (h : EntersBindings env ps bs run t b run') (hr : run.Ready env x)
    (hp : ∀ p ∈ ps, p.body.Over .whole run.store.size)
    (hbs : ∀ b ∈ bs, ∀ f, b.func? = some f → f.Over .whole) : run'.Ready env t := by
  induction h with
  | head => exact hr.expect (hp _ List.mem_cons_self)
  | tail hd _ ih =>
    rw [List.forall_mem_cons] at hp hbs
    obtain ⟨name, g, params, result, body, ty, qs, r, c, rfl, hfunc, rfl⟩ := inferBinding_yields.mp hd
    have hl := ((hr.expect hp.1).infer (hbs.1 _ rfl) hfunc).1
    exact ih (hr.lead hl) (fun q hq => (hp.2 q hq).mono hl.size) hbs.2

/-- The stages of a group are in order up to the equations that are to be solved. -/
theorem GroupTyped.leads {bs ts : List Binding} {ps : List Scheme} {run₁ run₂ run₃ : Run} {body : Expr}
    {ty : Ty} (h : GroupTyped env bs run ps ts run₁ run₂ run₃) (hr : run.Ready env x)
    (ho : (Expr.group bs body ty).Over .whole) :
    run.Leads .whole run₁ ∧ run₁.Leads .whole run₂ ∧ run₃.WF .whole ∧
      ∀ p ∈ ps, p.body.Over .whole run₁.store.size := by
  obtain ⟨hn, hfuncs, _⟩ := Expr.every_group.mp ho
  obtain ⟨hl₁, hpo, hinside⟩ := group_opens h.placed hr.wf hr.scope fun b hb g hg =>
    hn.generics g (mem_generics hb hg)
  have hl₂ := inferBindings_leads (fun _ _ f _ => infer_leads .whole f) h.inferred
    (placeholders_length h.placed) hl₁.wf hinside hpo hfuncs
  refine ⟨hl₁, hl₂, ?_, hpo⟩
  rw [h.reported]
  exact (Run.Leads.withLog hl₂.wf _).wf

/-! ## Inference -/

/-- The parts of a node are begun in order. -/
theorem Run.Ready.enters {env' : Env} {t : Ty} {e e' : Expr} (hr : run.Ready env x) (ho : e.Over .whole)
    (hin : Enters env x e run env' t e' run') : run'.Ready env' t := by
  cases hin with
  | body hp hres =>
    have hn := (Expr.every_func.mp ho).1
    obtain ⟨hready, hro⟩ := (hr.openParams hp hn.params).orFresh hres hn.result
    exact hready.expect hro
  | callee => exact hr.call _
  | arg hc hin =>
    obtain ⟨_, hcallee, hargs⟩ := Expr.every_call.mp ho
    have hl := ((hr.call _).infer hcallee hc).1
    exact hin.ready ((hr.alloc _).lead hl) (fun v hv => (over_freshList run _ v hv).mono hl.size) hargs
  | value ha =>
    obtain ⟨hready, hao⟩ := hr.orFresh ha (Expr.every_letIn.mp ho).1.annot
    exact hready.expect hao
  | letBody ha hv _ =>
    obtain ⟨hn, hvalue, _⟩ := Expr.every_letIn.mp ho
    obtain ⟨hready, hao⟩ := hr.orFresh ha hn.annot
    have hl := ((hready.expect hao).infer hvalue hv).1
    exact (hready.lead hl).declare (hao.mono hl.size) _
  | function hp hin _ =>
    obtain ⟨hn, hfuncs, _⟩ := Expr.every_group.mp ho
    obtain ⟨hl, hpo, hinside⟩ := group_opens hp hr.wf hr.scope fun b hb g hg =>
      hn.generics g (mem_generics hb hg)
    have hopen := Run.Ready.mk hl.wf hinside (hr.present.extendGroup _ _) (hr.expected.mono hl.size)
    exact hin.ready hopen hpo hfuncs
  | groupBody hg hs hga =>
    have hn := (Expr.every_group.mp ho).1
    obtain ⟨hl₁, hl₂, _, hpo⟩ := hg.leads hr ho
    obtain rfl := hg.reported
    obtain ⟨hl₃, houter⟩ := group_settles hl₁ hl₂ hs hga hr.scope hpo fun b hb g hg =>
      hn.generics g (mem_generics hb hg)
    have hl := (hl₁.trans hl₂).trans hl₃
    exact ⟨(Run.Leads.withNotes hl.wf _).wf, houter, hr.present.extendGroup _ _, hr.expected.mono hl.size⟩
  | element ha hin =>
    obtain ⟨hn, hitems⟩ := Expr.every_array.mp ho
    obtain ⟨hready, hao⟩ := hr.orFresh ha hn.item
    exact hin.ready (hready.expect hao) hitems
  | effect => exact (hr.alloc 1).expect (over_fresh run)
  | result hd =>
    have hl := (((hr.alloc 1).expect (over_fresh run)).infer (Expr.every_seq.mp ho).2.1 hd).1
    exact (hr.alloc 1).lead hl
  | item hin => exact hin.ready hr (Expr.every_block.mp ho).2

/-- What holds where inference comes to a part of a well-formed program. -/
structure InOrder (env : Env) (x : Ty) (e : Expr) (run : Run) : Prop where
  ready : run.Ready env x
  formed : e.Formed
  types : e.Over .whole

theorem InOrder.enters {env' : Env} {t : Ty} {e e' : Expr} (h : InOrder env x e run)
    (hin : Enters env x e run env' t e' run') : InOrder env' t e' run' :=
  ⟨h.ready.enters h.types hin, hin.formed h.formed, hin.every h.types⟩

/-- Where the invariant holds, a node stops properly. -/
theorem InOrder.haltsAt {e : Expr} {stop : Stop} (h : InOrder env x e run)
    (hs : HaltsAt env x e run stop run') : stop.Proper run' := by
  obtain ⟨hr, hf, ho⟩ := h
  cases hs with
  | absent => cases hf
  | other => cases hf
  | unbound hl => exact .unbound _
  | untyped hl => exact absurd hl (hr.present _)
  | arity hl hlen => exact .arity _ _ _
  | typeArgument hl hin he hstop =>
    have hn := Expr.every_var.mp ho
    obtain ⟨hwf, hao, hvo⟩ := hin.over (hr.alloc _).wf hn.typeArguments (over_freshList run _)
    exact refuse_stops (.of_unify hwf.acyclic hwf.store hao hvo he) _ _ hstop
  | missing hp hin hb =>
    cases hf with
    | group hfn _ _ =>
      have hsome := hfn _ hin.mem
      rw [hb] at hsome
      cases hsome
  | unsolved hg he hstop =>
    obtain ⟨_, _, hwf, _⟩ := hg.leads hr ho
    exact refuse_stops (.of_solveList hwf.acyclic hwf.store hwf.queue he) _ _ hstop
  | ungeneralized _ _ hpres => exact hpres hr.present
  | emptyBlock => exact .emptyBlock

/-- A well-formed program is stopped only by proper errors. -/
theorem infer_stops {e : Expr} (he : e.Formed) (hr : run.Ready env x) (ho : e.Over .whole) :
    (infer env x e).Stops Stop.Proper run :=
  infer_stops_of InOrder.enters InOrder.haltsAt ⟨hr, he, ho⟩

end

end Polytype
