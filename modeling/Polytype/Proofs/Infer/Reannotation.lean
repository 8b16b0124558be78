import Mathlib
import Polytype.Proofs.Expr.Types
import Polytype.Proofs.Typing.Annotated
import Polytype.Proofs.Typing.Completeness

/-!
# Annotated trees are inferred

A tree that checks, and whose annotations have no variables, can be given to inference like a program
(`infer_reannotates`). Inference keeps what the tree is annotated with, so the result prints as before,
and it finds nothing that the annotations do not say: the tree checks against the expected type under
every solution of the equations that are left in the end.

The environment of the run is that of the judgment throughout. Every name is bound to what the tree is
annotated with, in which there is nothing to solve; only the types of calls, of instances and of what is
evaluated for its effect get variables.
-/

namespace Polytype

open InferM

section

variable {run : Run} {env : Env} {σ : Int → Ty}

/-! ## What is given stays -/

theorem Ty.Whole.ne_absent {t : Ty} (h : t.Whole) : t ≠ .absent := by
  rintro rfl
  exact Ty.not_whole_absent h

theorem orFresh_given {a : Ty} (h : a.Whole) : (orFresh a).Yields run a run :=
  yields_orFresh.mpr (.inr ⟨h.ne_absent, rfl, rfl⟩)

theorem openParams_given {ps : List Param} (h : ∀ p ∈ ps, p.ty.Whole) :
    (openParams env ps).Yields run (ps, env.declareParams ps) run := by
  induction ps generalizing env with
  | nil => exact openParams_nil.mpr ⟨rfl, rfl⟩
  | cons p ps ih =>
    rw [List.forall_mem_cons] at h
    exact openParams_cons.mpr ⟨p.ty, run, ps, _, orFresh_given h.1, ih h.2, rfl⟩

theorem ChecksFunctions.placed {bs : List Binding} {gs : List Scheme} (h : ChecksFunctions env bs gs) :
    (placeholders bs).Yields run gs run := by
  induction bs generalizing gs with
  | nil =>
    cases h
    exact placeholders_nil.mpr ⟨rfl, rfl⟩
  | cons b bs ih =>
    cases h with
    | cons hs _ _ _ hrest => exact (placeholders_given hs).mpr ⟨_, ih hrest, rfl⟩

theorem mapPresent_closed {t : Ty} (h : t.Over .whole 0) (υ : Int → Ty) :
    Expr.mapPresent (Ty.subst υ) t = t := by
  rw [mapPresent_subst, Ty.subst_closed (h.closed not_false)]

theorem mapParams_closed {ps : List Param} (h : ∀ p ∈ ps, p.ty.Over .whole 0) (υ : Int → Ty) :
    ps.map (Expr.mapParam (Ty.subst υ)) = ps := by
  have hmap : ps.map (Expr.mapParam (Ty.subst υ)) = ps.map id :=
    List.map_congr_left fun p hp => congrArg (Param.mk p.name) (mapPresent_closed (h p hp) υ)
  rw [hmap, List.map_id]

theorem Env.Over.declareParams {ps : List Param} (h : env.Over .whole 0)
    (hp : ∀ p ∈ ps, p.ty.Over .whole 0) : (env.declareParams ps).Over .whole 0 := by
  induction ps generalizing env with
  | nil => exact h
  | cons p ps ih =>
    rw [List.forall_mem_cons] at hp
    exact ih (h.declare (.ofTy hp.1)) hp.2

theorem Checks.whole_annot {Γ : Env} {name : String} {annot ty t : Ty} {value body : Expr}
    (h : Checks Γ (.letIn name annot value body ty) t) : annot.Whole := by
  cases h with
  | letIn _ hw _ _ => exact hw
  | letAlone hw _ => exact hw

/-- An item of a block binds its annotation again. -/
theorem Checks.after_infer {Γ Δ : Env} {x t : Ty} {e d : Expr} {run' : Run} (hc : Checks Γ e t)
    (h : (infer env x e).Yields run d run') : Δ.after d = Δ.after e := by
  cases hb : e.boundAfter? with
  | none => rw [Env.after_eq_self hb, Env.after_eq_self ((infer_boundAfter h).trans hb)]
  | some name =>
    obtain ⟨annot, value, ty, rfl⟩ := Expr.boundAfter?_eq_some hb
    obtain ⟨a, run₁, v, run₂, ha, _, rfl, _⟩ := infer_let_alone.mp h
    obtain ⟨rfl, _⟩ := ha.unique (orFresh_given hc.whole_annot)
    rfl

theorem Env.Over.after {Γ : Env} {e : Expr} {t : Ty} (h : env.Over .whole 0) (hc : Checks Γ e t)
    (heo : e.Over .whole) : (env.after e).Over .whole 0 := by
  cases hb : e.boundAfter? with
  | none => rwa [Env.after_eq_self hb]
  | some name =>
    obtain ⟨annot, value, ty, rfl⟩ := Expr.boundAfter?_eq_some hb
    exact h.declare (.ofTy ((Expr.every_letIn.mp heo).1.annot hc.whole_annot.ne_absent))

/-! ## Lists -/

/-- If a solution takes the expected type to a type that the tree checks against, then the tree is
inferred and prints as before, the solution extends to what inference leaves behind, and the tree checks
under every solution of that. -/
def Reannotates (e : Expr) : Prop :=
  ∀ {env : Env} {x : Ty} {run : Run}, run.WF .whole → env.Over .whole 0 →
    x.Over .whole run.store.size → e.Over .whole →
    ∀ {σ : Int → Ty}, run.SolvedBy σ → Checks env e (x.subst σ) →
      ∃ d run' τ, (infer env x e).Yields run d run' ∧ run'.SolvedBy τ ∧ Agree run.store.size σ τ ∧
        (∀ υ, (d.mapTypes (Ty.subst υ)).PrintsAs e) ∧
        ∀ υ, run'.SolvedBy υ → Checks env e (x.subst υ)

/-- A tree is inferred again for a new variable, which stands for its type. -/
theorem Reannotates.fresh {e : Expr} {u : Ty} (ih : Reannotates e) (hr : run.WF .whole)
    (he : env.Over .whole 0) (heo : e.Over .whole) (hσ : run.SolvedBy σ) (hc : Checks env e u) :
    ∃ d run' τ, (infer env (.var run.store.size) e).Yields (run.alloc 1) d run' ∧
      run.Leads .whole run' ∧ run'.SolvedBy τ ∧ Agree run.store.size σ τ ∧
      (∀ υ, (d.mapTypes (Ty.subst υ)).PrintsAs e) ∧
      ∀ υ, run'.SolvedBy υ → Checks env e ((Ty.var run.store.size).subst υ) := by
  have ha := Run.Leads.alloc hr 1
  have hx : (Ty.var run.store.size).Over .whole _ := over_fresh run
  obtain ⟨τ₀, hτ₀, hagree₀, hu⟩ := fresh_complete hr hσ u
  obtain ⟨d, run', τ, hd, hτ, hagree, hprint, hcheck⟩ := ih ha.wf he hx heo hτ₀ (by rw [hu]; exact hc)
  have hl := (infer_leads .whole e hd ha.wf (he.mono (Nat.zero_le _)) hx heo).1
  exact ⟨d, run', τ, hd, ha.trans hl, hτ, hagree₀.trans hagree ha.size, hprint, hcheck⟩

/-- A tree is inferred again for an annotation. -/
theorem Reannotates.annotated {e : Expr} {a : Ty} (ih : Reannotates e) (hr : run.WF .whole)
    (he : env.Over .whole 0) (ha : a.Over .whole 0) (heo : e.Over .whole) (hσ : run.SolvedBy σ)
    (hc : Checks env e a) :
    ∃ d run' τ, (infer env a e).Yields run d run' ∧ run.Leads .whole run' ∧ run'.SolvedBy τ ∧
      Agree run.store.size σ τ ∧ ∀ υ, (d.mapTypes (Ty.subst υ)).PrintsAs e := by
  have hx := ha.mono (Nat.zero_le run.store.size)
  obtain ⟨d, run', τ, hd, hτ, hagree, hprint, _⟩ := ih hr he hx heo hσ
    (by rw [Ty.subst_closed (ha.closed not_false)]; exact hc)
  have hl := (infer_leads .whole e hd hr (he.mono (Nat.zero_le _)) hx heo).1
  exact ⟨d, run', τ, hd, hl, hτ, hagree, hprint⟩

theorem inferAll_reannotates {es : List Expr} {x : Ty} (ih : ∀ e ∈ es, Reannotates e)
    (hr : run.WF .whole) (he : env.Over .whole 0) (hx : x.Over .whole run.store.size)
    (hes : ∀ e ∈ es, e.Over .whole) (hσ : run.SolvedBy σ)
    (hc : ∀ e ∈ es, Checks env e (x.subst σ)) :
    ∃ ds run' τ, (inferAll env x es).Yields run ds run' ∧ run'.SolvedBy τ ∧
      Agree run.store.size σ τ ∧
      (∀ υ, List.Forall₂ Expr.PrintsAs (Expr.mapTypesList (Ty.subst υ) ds) es) ∧
      ∀ υ, run'.SolvedBy υ → ∀ e ∈ es, Checks env e (x.subst υ) := by
  induction es generalizing run σ with
  | nil =>
    exact ⟨[], run, σ, inferAll_nil.mpr ⟨rfl, rfl⟩, hσ, .refl _ _, fun _ => .nil, by simp⟩
  | cons e es ihs =>
    rw [List.forall_mem_cons] at ih hes hc
    obtain ⟨d, run₁, τ₁, hd, hτ₁, hagree, hprint, hcheck⟩ := ih.1 hr he hx hes.1 hσ hc.1
    have hl := (infer_leads .whole e hd hr (he.mono (Nat.zero_le _)) hx hes.1).1
    obtain ⟨ds, run', τ, hds, hτ, hagree', hprints, hchecks⟩ := ihs ih.2 hl.wf (hx.mono hl.size)
      hes.2 hτ₁ (by rw [← hagree.subst hx]; exact hc.2)
    have hl' := inferAll_leads (fun f _ => infer_leads .whole f) hds hl.wf (he.mono (Nat.zero_le _))
      (hx.mono hl.size) hes.2
    refine ⟨d :: ds, run', τ, inferAll_cons.mpr ⟨d, run₁, ds, hd, hds, rfl⟩, hτ,
      hagree.trans hagree' hl.size, fun υ => .cons (hprint υ) (hprints υ), fun υ hυ => ?_⟩
    exact List.forall_mem_cons.mpr ⟨hcheck υ (hl'.solved υ hυ), hchecks υ hυ⟩

theorem inferEach_reannotates {es : List Expr} {ts : List Ty} (ih : ∀ e ∈ es, Reannotates e)
    (hlen : ts.length = es.length) (hr : run.WF .whole) (he : env.Over .whole 0)
    (ht : ∀ t ∈ ts, t.Over .whole run.store.size) (hes : ∀ e ∈ es, e.Over .whole)
    (hσ : run.SolvedBy σ) (hc : ChecksEach env es (ts.map (Ty.subst σ))) :
    ∃ ds run' τ, (inferEach env ts es).Yields run ds run' ∧ run'.SolvedBy τ ∧
      Agree run.store.size σ τ ∧
      (∀ υ, List.Forall₂ Expr.PrintsAs (Expr.mapTypesList (Ty.subst υ) ds) es) ∧
      ∀ υ, run'.SolvedBy υ → ChecksEach env es (ts.map (Ty.subst υ)) := by
  induction es generalizing run σ ts with
  | nil =>
    obtain rfl := List.length_eq_zero_iff.mp hlen
    exact ⟨[], run, σ, inferEach_nil.mpr ⟨rfl, rfl⟩, hσ, .refl _ _, fun _ => .nil, fun _ _ => .nil⟩
  | cons e es ihs =>
    cases ts with
    | nil => cases hlen
    | cons t ts =>
      rw [List.map_cons] at hc
      cases hc with
      | cons hce hces =>
        rw [List.forall_mem_cons] at ih hes ht
        obtain ⟨d, run₁, τ₁, hd, hτ₁, hagree, hprint, hcheck⟩ := ih.1 hr he ht.1 hes.1 hσ hce
        have hl := (infer_leads .whole e hd hr (he.mono (Nat.zero_le _)) ht.1 hes.1).1
        have ht' : ∀ u ∈ ts, u.Over .whole run₁.store.size := fun u hu => (ht.2 u hu).mono hl.size
        rw [hagree.map_subst ht.2] at hces
        obtain ⟨ds, run', τ, hds, hτ, hagree', hprints, hchecks⟩ :=
          ihs ih.2 (Nat.succ.inj hlen) hl.wf ht' hes.2 hτ₁ hces
        have hl' := inferEach_leads (fun f _ => infer_leads .whole f) hds (Nat.succ.inj hlen) hl.wf
          (he.mono (Nat.zero_le _)) ht' hes.2
        exact ⟨d :: ds, run', τ, inferEach_cons.mpr ⟨d, run₁, ds, hd, hds, rfl⟩, hτ,
          hagree.trans hagree' hl.size, fun υ => .cons (hprint υ) (hprints υ),
          fun υ hυ => .cons (hcheck υ (hl'.solved υ hυ)) (hchecks υ hυ)⟩

theorem inferItems_reannotates {es : List Expr} {x : Ty} (ih : ∀ e ∈ es, Reannotates e)
    (hr : run.WF .whole) (he : env.Over .whole 0) (hx : x.Over .whole run.store.size)
    (hes : ∀ e ∈ es, e.Over .whole) (hσ : run.SolvedBy σ) (hc : ChecksItems env es (x.subst σ)) :
    ∃ ds run' τ, (inferItems env x es).Yields run ds run' ∧ run'.SolvedBy τ ∧
      Agree run.store.size σ τ ∧
      (∀ υ, List.Forall₂ Expr.PrintsAs (Expr.mapTypesList (Ty.subst υ) ds) es) ∧
      ∀ υ, run'.SolvedBy υ → ChecksItems env es (x.subst υ) := by
  induction es generalizing env run σ with
  | nil => cases hc
  | cons e es ihs =>
    rw [List.forall_mem_cons] at ih hes
    cases hc with
    | last hc =>
      obtain ⟨d, run', τ, hd, hτ, hagree, hprint, hcheck⟩ := ih.1 hr he hx hes.1 hσ hc
      exact ⟨[d], run', τ, inferItems_last.mpr ⟨d, hd, rfl⟩, hτ, hagree,
        fun υ => .cons (hprint υ) .nil, fun υ hυ => .last (hcheck υ hυ)⟩
    | @cons _ _ f es u _ hce hces =>
      obtain ⟨d, run₁, τ₁, hd, hl, hτ₁, hagree, hprint, hcheck⟩ :=
        Reannotates.fresh ih.1 hr he hes.1 hσ hce
      have he' := he.after hce hes.1
      have heq : env.after d = env.after e := hce.after_infer hd
      obtain ⟨ds, run', τ, hds, hτ, hagree', hprints, hchecks⟩ := ihs ih.2 hl.wf he'
        (hx.mono hl.size) hes.2 hτ₁ (by rw [← hagree.subst hx]; exact hces)
      have hl' := inferItems_leads (fun f _ => infer_leads .whole f) (by simp) hds hl.wf
        (he'.mono (Nat.zero_le _)) (hx.mono hl.size) hes.2
      rw [← heq] at hds
      exact ⟨d :: ds, run', τ, inferItems_cons.mpr ⟨d, run₁, ds, hd, hds, rfl⟩, hτ,
        hagree.trans hagree' hl.size, fun υ => .cons (hprint υ) (hprints υ),
        fun υ hυ => .cons (hcheck υ (hl'.solved υ hυ)) (hchecks υ hυ)⟩

/-! ## Groups -/

/-- The functions of a group are inferred again, and recorded with the generic types that they have. -/
theorem inferBindings_reannotates {bs : List Binding} {gs : List Scheme}
    (ih : ∀ b ∈ bs, ∀ f, b.func? = some f → Reannotates f) (hr : run.WF .whole)
    (he : env.Over .whole 0) (hg : ∀ g ∈ gs, g.body.Over .whole 0)
    (hbs : ∀ b ∈ bs, ∀ f, b.func? = some f → f.Over .whole) (hσ : run.SolvedBy σ)
    (hc : ChecksFunctions env bs gs) :
    ∃ ts ds run' τ, (inferBindings env gs bs).Yields run ts run' ∧ run'.SolvedBy τ ∧
      Agree run.store.size σ τ ∧ (∀ s outside, GeneralizedAll s outside bs gs ts gs ds) ∧
      ∀ υ, List.Forall₂ Binding.PrintsAs (Expr.mapTypesBindings (Ty.subst υ) ds) bs := by
  induction bs generalizing run σ gs with
  | nil =>
    cases hc
    exact ⟨[], [], run, σ, inferBindings_nil.mpr ⟨rfl, rfl⟩, hσ, .refl _ _, fun _ _ => .nil,
      fun _ => .nil⟩
  | cons b bs ihs =>
    cases hc with
    | @cons _ _ f g _ gs hs hf hw hcf hrest =>
      rw [List.forall_mem_cons] at ih hg hbs
      obtain ⟨d, run₁, τ₁, hd, hl, hτ₁, hagree, hprint⟩ :=
        Reannotates.annotated (ih.1 f hf) hr he hg.1 (hbs.1 f hf) hσ hcf
      obtain ⟨ts, ds, run', τ, hts, hτ, hagree', hga, hprints⟩ :=
        ihs ih.2 hl.wf hg.2 hbs.2 hτ₁ hrest
      cases b with
      | missing name scheme => cases hf
      | fn name scheme params result body ty =>
        cases hf
        obtain rfl : scheme = some g := hs
        obtain ⟨qs, inner, _, r, _, c, _, _, _, _, rfl, _⟩ := infer_func.mp hd
        refine ⟨_ :: ts, .fn name (some g) qs r c g.body :: ds, run', τ, inferBindings_cons.mpr
          ⟨_, run₁, ts, inferBinding_yields.mpr ⟨name, some g, params, result, body, ty, qs, r, c, rfl,
            hd, rfl⟩, hts, rfl⟩, hτ, hagree.trans hagree' hl.size,
          fun s outside => .cons .given (hga s outside), fun υ => .cons ?_ (hprints υ)⟩
        have hscheme : (some g).map (Expr.mapScheme (Ty.subst υ)) = some g :=
          congrArg (fun b => some (Scheme.mk g.params b)) (mapPresent_closed hg.1 υ)
        rw [Expr.mapTypesBinding, hscheme]
        have hfunc := hprint υ
        rw [Expr.mapTypes] at hfunc
        exact .fn hfunc

/-- A group that checks is inferred again. -/
theorem group_reannotates {bs : List Binding} {body : Expr} {ty x : Ty} {gs : List Scheme}
    (ihf : ∀ b ∈ bs, ∀ f, b.func? = some f → Reannotates f) (ihb : Reannotates body)
    (hr : run.WF .whole) (he : env.Over .whole 0) (hx : x.Over .whole run.store.size)
    (heo : (Expr.group bs body ty).Over .whole) (hσ : run.SolvedBy σ)
    (hfuncs : ChecksFunctions (env.extendGroup bs gs) bs gs)
    (hbody : Checks (env.extendGroup bs gs) body (x.subst σ)) :
    ∃ d run' τ, (infer env x (.group bs body ty)).Yields run d run' ∧ run'.SolvedBy τ ∧
      Agree run.store.size σ τ ∧ (∀ υ, (d.mapTypes (Ty.subst υ)).PrintsAs (.group bs body ty)) ∧
      ∀ υ, run'.SolvedBy υ → Checks env (.group bs body ty) (x.subst υ) := by
  obtain ⟨hn, hfo, hbo⟩ := Expr.every_group.mp heo
  have hg : ∀ g ∈ gs, g.body.Over .whole 0 := fun g hg => by
    have hmem := List.mem_map_of_mem (f := some) hg
    rw [← hfuncs.schemes] at hmem
    obtain ⟨b, hb, hs⟩ := List.mem_map.mp hmem
    exact hn.generics g (mem_generics hb hs)
  have he' : (env.extendGroup bs gs).Over .whole 0 := he.extendGroup fun g h => .of_body (hg g h)
  -- the functions are inferred and the constraints solved
  have hl₁ := Run.Leads.groups hr (run.groups + 1)
  have hσ₁ : ({ run with groups := run.groups + 1 } : Run).SolvedBy σ := ⟨hσ.store, hσ.queue⟩
  obtain ⟨ts, ds, run₂, τ₂, hts, hτ₂, hagree₂, hga, hprints⟩ :=
    inferBindings_reannotates ihf hl₁.wf he' hg hfo hσ₁ hfuncs
  have hlen : gs.length = bs.length := by
    rw [← List.length_map some, ← hfuncs.schemes, List.length_map]
  have hl₂ := inferBindings_leads (fun b _ f _ => infer_leads .whole f) hts hlen hl₁.wf
    (he'.mono (Nat.zero_le _)) (fun g h => (hg g h).mono (Nat.zero_le _)) hfo
  have hlog := Run.Leads.withLog hl₂.wf (run₂.log.push
    (.solving (run.groups + 1) bs.length run₂.queue.size))
  have hτlog : (run₂.withLog (run₂.log.push
    (.solving (run.groups + 1) bs.length run₂.queue.size))).SolvedBy τ₂ := ⟨hτ₂.store, hτ₂.queue⟩
  obtain ⟨run₃, hs⟩ := Run.solve_yields hlog.wf hτlog
  have hl₃ := hlog.trans (.solve hlog.wf hs)
  have hτ₃ : run₃.SolvedBy τ₂ := (Run.solvedBy_solve hlog.wf hs).mpr hτlog
  have hl := (hl₁.trans hl₂).trans hl₃
  -- nothing is left to generalise, and the body is inferred
  obtain ⟨notes, hgroup⟩ := @infer_group_of env x run bs ts ds body ty gs gs _ run₂ run₃ hfuncs.placed
    hts hs (hga run₃.store env)
  have hl₄ := Run.Leads.withNotes hl₃.wf notes
  obtain ⟨b, run', τ, hb, hτ, hagree, hprint, hcheck⟩ := @ihb _ x (run₃.withNotes notes) hl₄.wf he'
    (hx.mono hl.size) hbo τ₂ ⟨hτ₃.store, hτ₃.queue⟩ (by rw [← hagree₂.subst hx]; exact hbody)
  refine ⟨_, run', τ, hgroup hb, hτ, hagree₂.trans hagree hl.size, fun υ => ?_, fun υ hυ =>
    .group hfuncs (hcheck υ hυ)⟩
  rw [Expr.mapTypes]
  exact .group (hprints υ) (hprint υ)

/-! ## Inference, case by case -/

theorem var_reannotates {name : String} {typeArgs : Option (List Ty)} {ty : Ty} :
    Reannotates (.var name typeArgs ty) := by
  intro env x run hr he hx heo σ hσ hc
  generalize hxt : x.subst σ = t at hc
  cases hc with
  | @var _ _ _ g args hg hlen =>
    -- what is bound has no variables, so a solution reaches an instance through its arguments only
    have hclosed : g.body.vars = [] := Ty.Over.closed (he name g hg) not_false
    have happ : ∀ υ as, g.applyUnder υ as = g.apply as := fun υ as =>
      Scheme.applyUnder_eq_apply (by simp [hclosed]) as
    obtain ⟨τ, hτ, hagree, hmap⟩ := alloc_complete hr hσ args
    rw [hlen] at hτ hmap
    refine ⟨_, _, τ, infer_var.mpr ⟨g, _, hg, by simp, unifyTypeArgs_nil.mpr rfl, rfl, rfl⟩,
      Run.solvedBy_emit.mpr ⟨hτ, ?_⟩, hagree, fun υ => .var, fun υ hυ => ?_⟩
    · rw [← hagree.subst hx, hxt, Scheme.subst_apply, hmap, happ]
    · rw [(Run.solvedBy_emit.mp hυ).2, Scheme.subst_apply, happ]
      exact .var hg (by rw [List.length_map, length_freshList])

theorem func_reannotates {params : List Param} {result ty : Ty} {body : Expr} (ih : Reannotates body) :
    Reannotates (.func params result body ty) := by
  intro env x run hr he hx heo σ hσ hc
  generalize hxt : x.subst σ = t at hc
  cases hc with
  | func hpw hrw hb =>
    obtain ⟨hn, hbo⟩ := Expr.every_func.mp heo
    have hpo : ∀ p ∈ params, p.ty.Over .whole 0 := fun p hp => hn.params p hp (hpw p hp).ne_absent
    have hro := hn.result hrw.ne_absent
    have hfun : ∀ υ, (Ty.function (params.map (·.ty)) result).subst υ =
        .function (params.map (·.ty)) result :=
      Ty.subst_closed (Ty.Over.closed (.function (List.forall_mem_map.mpr hpo) hro) not_false)
    obtain ⟨b, run', τ, hb', _, hτ, hagree, hprint⟩ :=
      ih.annotated hr (he.declareParams hpo) hro hbo hσ hb
    refine ⟨_, _, τ, infer_func.mpr ⟨params, _, run, result, run, b, run', openParams_given hpw,
      orFresh_given hrw, hb', rfl, rfl⟩, Run.solvedBy_emit.mpr ⟨hτ, ?_⟩, hagree, fun υ => ?_,
      fun υ hυ => ?_⟩
    · rw [← hagree.subst hx, hxt, hfun]
    · rw [Expr.mapTypes, mapParams_closed hpo, mapPresent_closed hro]
      exact .func (hprint υ)
    · rw [(Run.solvedBy_emit.mp hυ).2, hfun]
      exact .func hpw hrw hb

theorem call_reannotates {callee : Expr} {args : List Expr} {ty : Ty} (ihf : Reannotates callee)
    (iha : ∀ a ∈ args, Reannotates a) : Reannotates (.call callee args ty) := by
  intro env x run hr he hx heo σ hσ hc
  generalize hxt : x.subst σ = t at hc
  cases hc with
  | @call _ _ _ ts _ _ hcallee hargs =>
    -- the variables of the arguments take the types of the derivation
    obtain ⟨_, hco, hao⟩ := Expr.every_call.mp heo
    obtain ⟨τ₀, hτ₀, hagree₀, hmap⟩ := alloc_complete hr hσ ts
    rw [hargs.length] at hτ₀ hmap
    have ha := Run.Leads.alloc hr args.length
    have hfresh : ∀ v ∈ (Store.freshList args.length run.store).1, v.Over .whole _ :=
      over_freshList run args.length
    have hfun : (Ty.function (Store.freshList args.length run.store).1 x).Over .whole _ :=
      .function hfresh (hx.mono ha.size)
    obtain ⟨f, run₁, τ₁, hf, hτ₁, hagree₁, hprint, hcheck⟩ := ihf ha.wf he hfun hco hτ₀
      (by rw [Ty.subst_function, hmap, ← hagree₀.subst hx, hxt]; exact hcallee)
    have hl := (infer_leads .whole callee hf ha.wf (he.mono (Nat.zero_le _)) hfun hco).1
    have hfresh' : ∀ v ∈ (Store.freshList args.length run.store).1, v.Over .whole _ :=
      fun v hv => (hfresh v hv).mono hl.size
    obtain ⟨es, run', τ, hes, hτ, hagree', hprints, hchecks⟩ := inferEach_reannotates iha
      (length_freshList _ _) hl.wf he hfresh' hao hτ₁
      (by rw [← hagree₁.map_subst hfresh, hmap]; exact hargs)
    have hl' := inferEach_leads (fun g _ => infer_leads .whole g) hes (length_freshList _ _) hl.wf
      (he.mono (Nat.zero_le _)) hfresh' hao
    refine ⟨_, run', τ, infer_call.mpr ⟨f, run₁, es, hf, hes, rfl⟩, hτ,
      (hagree₀.trans hagree₁ ha.size).trans hagree' (ha.trans hl).size, fun υ => ?_, fun υ hυ => ?_⟩
    · rw [Expr.mapTypes]
      exact .call (hprint υ) (hprints υ)
    · have hfn := hcheck υ (hl'.solved υ hυ)
      rw [Ty.subst_function] at hfn
      exact .call hfn (hchecks υ hυ)

theorem let_reannotates {name : String} {annot ty : Ty} {value body : Expr} (ihv : Reannotates value)
    (ihb : Reannotates body) : Reannotates (.letIn name annot value body ty) := by
  intro env x run hr he hx heo σ hσ hc
  obtain ⟨hn, hvo, hbo⟩ := Expr.every_letIn.mp heo
  generalize hxt : x.subst σ = t at hc
  cases hc with
  | letAlone hw hv =>
    have hao := hn.annot hw.ne_absent
    have hclosed : ∀ υ, annot.subst υ = annot := Ty.subst_closed (hao.closed not_false)
    obtain ⟨v, run', τ, hv', _, hτ, hagree, hprint⟩ := ihv.annotated hr he hao hvo hσ hv
    refine ⟨_, _, τ, infer_let_alone.mpr ⟨annot, run, v, run', orFresh_given hw, hv', rfl, rfl⟩,
      Run.solvedBy_emit.mpr ⟨hτ, ?_⟩, hagree, fun υ => ?_, fun υ hυ => ?_⟩
    · rw [← hagree.subst hx, hxt, hclosed]
    · rw [Expr.mapTypes, mapPresent_closed hao]
      exact .letAlone (hprint υ)
    · rw [(Run.solvedBy_emit.mp hυ).2, hclosed]
      exact .letAlone hw hv
  | letIn hab hw hv hb =>
    have hao := hn.annot hw.ne_absent
    obtain ⟨v, run₁, τ₁, hv', hl, hτ₁, hagree₁, hprint⟩ := ihv.annotated hr he hao hvo hσ hv
    obtain ⟨b, run', τ, hb', hτ, hagree, hprint', hcheck⟩ := ihb hl.wf (he.declare (.ofTy hao))
      (hx.mono hl.size) hbo hτ₁ (by rw [← hagree₁.subst hx, hxt]; exact hb)
    refine ⟨_, run', τ, (infer_let hab).mpr ⟨annot, run, v, run₁, b, orFresh_given hw, hv', hb', rfl⟩,
      hτ, hagree₁.trans hagree hl.size, fun υ => ?_, fun υ hυ => .letIn hab hw hv (hcheck υ hυ)⟩
    rw [Expr.mapTypes, mapPresent_closed hao]
    exact .letIn (hprint υ) (hprint' υ) (by rw [Expr.isAbsent_mapTypes, infer_isAbsent hb']) hab

theorem array_reannotates {item ty : Ty} {items : List Expr} (ih : ∀ e ∈ items, Reannotates e) :
    Reannotates (.array item items ty) := by
  intro env x run hr he hx heo σ hσ hc
  obtain ⟨hn, hio⟩ := Expr.every_array.mp heo
  generalize hxt : x.subst σ = t at hc
  cases hc with
  | array hw hitems =>
    have hao := hn.item hw.ne_absent
    have hclosed : ∀ υ, item.subst υ = item := Ty.subst_closed (hao.closed not_false)
    obtain ⟨es, run', τ, hes, hτ, hagree, hprints, _⟩ := inferAll_reannotates ih hr he
      (hao.mono (Nat.zero_le _)) hio hσ (by rw [hclosed]; exact hitems)
    refine ⟨_, _, τ, infer_array.mpr ⟨item, run, es, run', orFresh_given hw, hes, rfl, rfl⟩,
      Run.solvedBy_emit.mpr ⟨hτ, ?_⟩, hagree, fun υ => ?_, fun υ hυ => ?_⟩
    · rw [← hagree.subst hx, hxt, Ty.subst_array, hclosed]
    · rw [Expr.mapTypes, mapPresent_closed hao]
      exact .array (hprints υ)
    · rw [(Run.solvedBy_emit.mp hυ).2, Ty.subst_array, hclosed]
      exact .array hw hitems

theorem seq_reannotates {effect value : Expr} {ty : Ty} (ihe : Reannotates effect)
    (ihv : Reannotates value) : Reannotates (.seq effect value ty) := by
  intro env x run hr he hx heo σ hσ hc
  obtain ⟨_, heff, hvo⟩ := Expr.every_seq.mp heo
  generalize hxt : x.subst σ = t at hc
  cases hc with
  | seq heffect hvalue =>
    obtain ⟨d, run₁, τ₁, hd, hl, hτ₁, hagree, hprint, hcheck⟩ := ihe.fresh hr he heff hσ heffect
    obtain ⟨v, run', τ, hv, hτ, hagree', hprint', hcheck'⟩ := ihv hl.wf he (hx.mono hl.size) hvo hτ₁
      (by rw [← hagree.subst hx, hxt]; exact hvalue)
    have hl' := (infer_leads .whole value hv hl.wf (he.mono (Nat.zero_le _)) (hx.mono hl.size) hvo).1
    refine ⟨_, run', τ, infer_seq.mpr ⟨d, run₁, v, hd, hv, rfl⟩, hτ, hagree.trans hagree' hl.size,
      fun υ => ?_, fun υ hυ => .seq (hcheck υ (hl'.solved υ hυ)) (hcheck' υ hυ)⟩
    rw [Expr.mapTypes]
    exact .seq (hprint υ) (hprint' υ)

theorem block_reannotates {items : List Expr} {ty : Ty} (ih : ∀ e ∈ items, Reannotates e) :
    Reannotates (.block items ty) := by
  intro env x run hr he hx heo σ hσ hc
  generalize hxt : x.subst σ = t at hc
  cases hc with
  | block hitems =>
    have hne : items ≠ [] := by
      rintro rfl
      cases hitems
    rw [← hxt] at hitems
    obtain ⟨es, run', τ, hes, hτ, hagree, hprints, hchecks⟩ := inferItems_reannotates ih hr he hx
      (Expr.every_block.mp heo).2 hσ hitems
    refine ⟨_, run', τ, infer_block.mpr ⟨hne, es, hes, rfl⟩, hτ, hagree, fun υ => ?_,
      fun υ hυ => .block (hchecks υ hυ)⟩
    rw [Expr.mapTypes]
    exact .block (hprints υ)

/-- An annotated tree that checks is inferred, and keeps its text. -/
theorem infer_reannotates (e : Expr) : Reannotates e := by
  induction e with
  | absent =>
    intro env x run _ _ _ _ σ _ hc
    cases hc
  | other kind =>
    intro env x run _ _ _ _ σ _ hc
    cases hc
  | int value ty =>
    intro env x run _ _ _ _ σ hσ hc
    generalize hxt : x.subst σ = t at hc
    cases hc
    refine ⟨_, _, σ, infer_int.mpr ⟨rfl, rfl⟩, Run.solvedBy_emit.mpr ⟨hσ, hxt⟩, .refl _ _,
      fun υ => .int, fun υ hυ => ?_⟩
    rw [(Run.solvedBy_emit.mp hυ).2]
    exact .int
  | str value ty =>
    intro env x run _ _ _ _ σ hσ hc
    generalize hxt : x.subst σ = t at hc
    cases hc
    refine ⟨_, _, σ, infer_str.mpr ⟨rfl, rfl⟩, Run.solvedBy_emit.mpr ⟨hσ, hxt⟩, .refl _ _,
      fun υ => .str, fun υ hυ => ?_⟩
    rw [(Run.solvedBy_emit.mp hυ).2]
    exact .str
  | var name typeArgs ty => exact var_reannotates
  | func params result body ty ih => exact func_reannotates ih
  | call callee args ty ihf iha => exact call_reannotates ihf iha
  | letIn name annot value body ty ihv ihb => exact let_reannotates ihv ihb
  | group bs body ty ihf ihb =>
    intro env x run hr he hx heo σ hσ hc
    generalize hxt : x.subst σ = t at hc
    cases hc with
    | group hfuncs hbody =>
      rw [← hxt] at hbody
      exact group_reannotates ihf ihb hr he hx heo hσ hfuncs hbody
  | array item items ty ih => exact array_reannotates ih
  | seq effect value ty ihe ihv => exact seq_reannotates ihe ihv
  | block items ty ih => exact block_reannotates ih

end

end Polytype
