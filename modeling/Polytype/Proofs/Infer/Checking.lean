import Mathlib
import Polytype.Proofs.Expr.Types
import Polytype.Proofs.Infer.Annotation
import Polytype.Proofs.Typing.Annotated
import Polytype.Proofs.Typing.Soundness

/-!
# The tree of a program checks

Inference annotates a program. Whatever solves the equations in the end can be put into the tree that
inference leaves behind, and the tree then checks (`infer_checks`), if the program is given no generic
types and no type arguments, and nothing that it is given has a name that is generated.

The generic types of groups are put into the tree with their parameters as constructors, so a solution
must not mention the parameters of groups inside (`Suits`). This is where generated names count. A name
is given to a variable of a function when its group is generalised, apart from the names that groups
inside the function use; so the parameters of the groups inside stay clear of whatever is named outside.
-/

namespace Polytype

open InferM

/-- All leaves are allowed but missing ones, the variables of others and names that are generated. -/
def Vocabulary.ungenerated : Vocabulary where
  gaps := False
  strays := False
  consts c := ∀ k : Nat, c ≠ genericName k
  int k := (genericName_ne_int k).symm
  string k := (genericName_ne_string k).symm

/-! ## Assignments that are put into a tree -/

/-- An assignment can be put into a tree: its types are whole, and they mention no parameter of a group
in the tree. -/
structure Suits (σ : Int → Ty) (d : Expr) : Prop where
  whole : ∀ i, (σ i).Whole
  clear : d.Every fun n => ∀ g ∈ n.generics, ∀ p ∈ g.params, ∀ i, p ∈ (σ i).consts →
    Vocabulary.ungenerated.consts p

theorem Expr.mem_generics_mapTypes {f : Ty → Ty} {n : Expr} {g : Scheme} (hg : g ∈ n.generics) :
    mapScheme f g ∈ (n.mapTypes f).generics := by
  cases n with
  | group bindings body ty =>
    obtain ⟨b, hb, hs⟩ := List.mem_filterMap.mp hg
    rw [mapTypes, generics, mapTypesBindings_eq]
    refine List.mem_filterMap.mpr ⟨mapTypesBinding f b, List.mem_map_of_mem hb, ?_⟩
    rw [Binding.scheme_mapTypes, hs]
    rfl
  | _ => cases hg

section

variable {σ τ υ : Int → Ty}

theorem Suits.of_mapTypes {f : Ty → Ty} {d : Expr} (h : Suits σ (d.mapTypes f)) : Suits σ d :=
  ⟨h.whole, fun n hn _ hg p hp =>
    Expr.every_mapTypes.mp h.clear n hn _ (Expr.mem_generics_mapTypes hg) p hp⟩

section

variable {params : List Param} {result annot item ty : Ty} {callee effect value body : Expr}
  {args items : List Expr} {bindings : List Binding} {name : String}

theorem Suits.func (h : Suits σ (.func params result body ty)) : Suits σ body :=
  ⟨h.whole, (Expr.every_func.mp h.clear).2⟩

theorem Suits.call (h : Suits σ (.call callee args ty)) : Suits σ callee ∧ ∀ a ∈ args, Suits σ a := by
  obtain ⟨_, hcallee, hargs⟩ := Expr.every_call.mp h.clear
  exact ⟨⟨h.whole, hcallee⟩, fun a ha => ⟨h.whole, hargs a ha⟩⟩

theorem Suits.letIn (h : Suits σ (.letIn name annot value body ty)) : Suits σ value ∧ Suits σ body := by
  obtain ⟨_, hvalue, hbody⟩ := Expr.every_letIn.mp h.clear
  exact ⟨⟨h.whole, hvalue⟩, h.whole, hbody⟩

theorem Suits.group (h : Suits σ (.group bindings body ty)) :
    (∀ b ∈ bindings, ∀ f, b.func? = some f → Suits σ f) ∧ Suits σ body := by
  obtain ⟨_, hfuncs, hbody⟩ := Expr.every_group.mp h.clear
  exact ⟨fun b hb f hf => ⟨h.whole, hfuncs b hb f hf⟩, h.whole, hbody⟩

theorem Suits.array (h : Suits σ (.array item items ty)) : ∀ e ∈ items, Suits σ e := fun e he =>
  ⟨h.whole, (Expr.every_array.mp h.clear).2 e he⟩

theorem Suits.seq (h : Suits σ (.seq effect value ty)) : Suits σ effect ∧ Suits σ value := by
  obtain ⟨_, heffect, hvalue⟩ := Expr.every_seq.mp h.clear
  exact ⟨⟨h.whole, heffect⟩, h.whole, hvalue⟩

theorem Suits.block (h : Suits σ (.block items ty)) : ∀ e ∈ items, Suits σ e := fun e he =>
  ⟨h.whole, (Expr.every_block.mp h.clear).2 e he⟩

end

/-- An assignment after one that keeps clear of the groups of a tree. -/
theorem Suits.reread {d : Expr} (h : Suits σ (d.mapTypes (Ty.subst τ))) (hw : ∀ i, (τ i).Whole)
    (hc : ∀ i, ∀ c ∈ (τ i).consts, Vocabulary.ungenerated.consts c ∨ c ∉ d.groupParams) :
    Suits (fun i => (τ i).subst σ) d := by
  refine ⟨fun i => (hw i).subst fun j _ => h.whole j, ?_⟩
  intro n hn g hg p hp i hi
  rcases Ty.mem_consts_subst.mp hi with hi | ⟨j, _, hj⟩
  · rcases hc i p hi with hV | hout
    · exact hV
    · exact absurd (mem_groupParams hn hg hp) hout
  · exact h.of_mapTypes.clear n hn g hg p hp j hj

/-- A scheme whose variables are replaced by types that do not mention its parameters. -/
theorem Scheme.under_subst {g : Scheme} (h : ∀ i ∈ g.body.vars, ∀ c ∈ (σ i).consts, c ∉ g.params) :
    Scheme.Under σ g (Expr.mapScheme (Ty.subst σ) g) := by
  refine ⟨rfl, fun args _ => ?_⟩
  show (Expr.mapPresent (Ty.subst σ) g.body).replace (argument? g.params args) = _
  rw [mapPresent_subst, ← Ty.inst_var_eq_replace, Ty.inst_subst, applyUnder]
  refine Ty.inst_congr (fun _ _ => rfl) fun i hi => ?_
  rw [Ty.inst_var_eq_replace]
  exact Ty.replace_eq_self fun c hc => argument?_of_not_mem (h i hi c hc)

theorem whole_named (ids : List Int) (names : List String) (i : Int) : (named ids names i).Whole := by
  rcases named_cases ids names i with heq | ⟨n, _, heq⟩ <;> simp [heq]

/-! ## Functions of groups -/

theorem Env.extendGroup_congr {bs bs' : List Binding} (h : bs'.map (·.name) = bs.map (·.name))
    (env : Env) (gs : List Scheme) : env.extendGroup bs' gs = env.extendGroup bs gs := by
  induction bs generalizing bs' env gs with
  | nil =>
    obtain rfl := List.map_eq_nil_iff.mp h
    rfl
  | cons b bs ih =>
    cases bs' with
    | nil => cases h
    | cons b' bs' =>
      rw [List.map_cons, List.map_cons, List.cons_eq_cons] at h
      cases gs with
      | nil => rfl
      | cons g gs =>
        rw [extendGroup, extendGroup, h.1]
        exact ih h.2 _ gs

theorem inferBindings_names {env : Env} {run run' : Run} {bs ts : List Binding} {ps : List Scheme}
    (h : (inferBindings env ps bs).Yields run ts run') (hlen : ps.length = bs.length) :
    ts.map (·.name) = bs.map (·.name) := by
  induction bs generalizing run ps ts with
  | nil =>
    obtain ⟨rfl, _⟩ := inferBindings_nil.mp h
    rfl
  | cons b bs ih =>
    cases ps with
    | nil => cases hlen
    | cons p ps =>
      obtain ⟨d, run₁, ds, hd, hds, rfl⟩ := inferBindings_cons.mp h
      obtain ⟨name, _, _, _, _, _, _, _, _, rfl, _, rfl⟩ := inferBinding_yields.mp hd
      rw [List.map_cons, List.map_cons, ih hds (Nat.succ.inj hlen)]
      rfl

variable {s : Store} {env : Env}

theorem Generalized.recorded {p g : Scheme} {own : Option Scheme} {t d : Binding}
    (h : Generalized s env p own t g d) : d.name = t.name ∧ d.scheme = some g := by
  cases h <;> exact ⟨rfl, rfl⟩

theorem GeneralizedAll.names {bs ts ds : List Binding} {ps gs : List Scheme}
    (h : GeneralizedAll s env bs ps ts gs ds) : ds.map (·.name) = ts.map (·.name) := by
  induction h with
  | nil => rfl
  | cons hg _ ih =>
    rw [List.map_cons, List.map_cons, ih, hg.recorded.1]

theorem GeneralizedAll.mem_generics {bs ts ds : List Binding} {ps gs : List Scheme}
    (h : GeneralizedAll s env bs ps ts gs ds) {g : Scheme} (hg : g ∈ gs) (body : Expr) (ty : Ty) :
    g ∈ (Expr.group ds body ty).generics := by
  have hmem : ∃ d ∈ ds, d.scheme = some g := by
    induction h with
    | nil => cases hg
    | @cons b t d p g' bs ts ds ps gs hgen _ ih =>
      rcases List.mem_cons.mp hg with rfl | hg
      · exact ⟨d, List.mem_cons_self, hgen.recorded.2⟩
      · obtain ⟨d', hd', hs⟩ := ih hg
        exact ⟨d', List.mem_cons_of_mem _ hd', hs⟩
  obtain ⟨d, hd, hs⟩ := hmem
  exact Polytype.mem_generics hd hs

/-- A function that is recorded for a group, its generic type put in: it is the inferred function with
names for some variables, and has the type that it has inside the group, read through the names. -/
theorem Generalized.reread {p g : Scheme} {t d : Binding} {f : Expr}
    (h : Generalized s env p none t g d) (hf : t.func? = some f) (hs : s.Acyclic)
    (ho : s.Over .ungenerated) (hσ : s.SolvedBy σ) :
    ∃ τ υ, Rereads s env σ τ υ ∧ (∀ i, (τ i).Whole) ∧
      (∀ i, ∀ c ∈ (τ i).consts, Vocabulary.ungenerated.consts c ∨ c ∉ f.groupParams) ∧
      d.scheme = some g ∧ d.func? = some (f.mapTypes (Ty.subst τ)) ∧
      g.body.subst σ = p.body.subst fun i => (τ i).subst σ := by
  cases h with
  | closed hc =>
    cases hf
    have hcl := closing_closes hs hc
    -- there was nothing to name, and the function was recorded as it is
    refine ⟨.var, σ, .self hσ, Ty.whole_var, by simp, rfl, ?_, ?_⟩
    · rw [Expr.mapTypes_id Ty.subst_id]
      rfl
    · have hids : s.generalizable env p.body = [] := by
        rw [← List.length_eq_zero_iff, ← hcl.length, hcl.same rfl, List.length_nil]
      rw [hcl.body, hids, Polytype.named, assign_nil, Ty.subst_id, Store.subst_resolve hσ]
      rfl
  | @named _ store name old qs r c ty hc =>
    cases hf
    have hcl := closing_closes hs hc
    have hstore := hcl.store store rfl
    have hresolve : Ty.subst (fun i => store.resolve (.var i)) = store.resolve :=
      funext fun u => (Store.resolve_eq_subst store u).symm
    refine ⟨fun i => store.resolve (.var i), _, hcl.rereads, fun i => ?_, fun i c hc => ?_, rfl, ?_, ?_⟩
    · show (store.resolve (.var i)).Whole
      rw [hstore]
      exact (ho.whole_resolve hs not_false i).subst fun j _ => whole_named _ _ j
    · replace hc : c ∈ (store.resolve (.var i)).consts := hc
      rw [hstore] at hc
      rcases Ty.mem_consts_subst.mp hc with hc | ⟨v, _, hc⟩
      · exact .inl (ho.mem_consts_resolve hs hc)
      · exact .inr (hcl.apart c (mem_consts_named hc))
    · rw [hresolve, Expr.mapTypes]
      rfl
    · rw [Rereads.subst (σ := σ) hcl.rereads, hcl.body, Ty.subst_subst]

end

/-! ## Inference -/

/-- The type arguments that a variable is given, if it is given a list of them. -/
def Expr.typeArgs? : Expr → Option (List Ty)
  | var _ typeArgs _ => typeArgs
  | _ => none

/-- No variable is given type arguments. -/
def Expr.Unapplied (e : Expr) : Prop := e.Every fun n => n.typeArgs? = none

/-- Whatever solves the equations after the expression was inferred can be put into its tree, which
then checks against the expected type. -/
def Checking (e : Expr) : Prop :=
  ∀ {env : Env} {x : Ty} {run run' : Run} {d : Expr}, (infer env x e).Yields run d run' →
    run.WF .ungenerated → env.Over .ungenerated run.store.size →
    x.Over .ungenerated run.store.size → e.Plain .ungenerated → e.Unapplied →
    ∀ {σ : Int → Ty} {Γ : Env}, run'.SolvedBy σ → Suits σ d → env.Rel (fun _ => Scheme.Under σ) Γ →
      Checks Γ (d.mapTypes (Ty.subst σ)) (x.subst σ)

section

variable {run run' : Run} {env Γ : Env} {σ : Int → Ty}

theorem inferAll_checks {es ds : List Expr} {x : Ty} (ih : ∀ e ∈ es, Checking e)
    (h : (inferAll env x es).Yields run ds run') (hr : run.WF .ungenerated)
    (he : env.Over .ungenerated run.store.size) (hx : x.Over .ungenerated run.store.size)
    (hes : ∀ e ∈ es, e.Plain .ungenerated) (hna : ∀ e ∈ es, e.Unapplied) (hσ : run'.SolvedBy σ)
    (hds : ∀ d ∈ ds, Suits σ d) (hΓ : env.Rel (fun _ => Scheme.Under σ) Γ) :
    ∀ d ∈ Expr.mapTypesList (Ty.subst σ) ds, Checks Γ d (x.subst σ) := by
  induction es generalizing run ds with
  | nil =>
    obtain ⟨rfl, _⟩ := inferAll_nil.mp h
    simp [Expr.mapTypesList]
  | cons e es ihs =>
    rw [List.forall_mem_cons] at ih hes hna
    obtain ⟨d, run₁, ds, hd, hrest, rfl⟩ := inferAll_cons.mp h
    rw [List.forall_mem_cons] at hds
    have hl := (infer_leads _ e hd hr he hx hes.1.over).1
    have hl' := inferAll_leads (fun f _ => infer_leads _ f) hrest hl.wf (he.mono hl.size)
      (hx.mono hl.size) fun f hf => (hes.2 f hf).over
    rw [Expr.mapTypesList, List.forall_mem_cons]
    exact ⟨ih.1 hd hr he hx hes.1 hna.1 (hl'.solved σ hσ) hds.1 hΓ,
      ihs ih.2 hrest hl.wf (he.mono hl.size) (hx.mono hl.size) hes.2 hna.2 hds.2⟩

theorem inferEach_checks {es ds : List Expr} {ts : List Ty} (ih : ∀ e ∈ es, Checking e)
    (h : (inferEach env ts es).Yields run ds run') (hlen : ts.length = es.length)
    (hr : run.WF .ungenerated) (he : env.Over .ungenerated run.store.size)
    (ht : ∀ t ∈ ts, t.Over .ungenerated run.store.size) (hes : ∀ e ∈ es, e.Plain .ungenerated)
    (hna : ∀ e ∈ es, e.Unapplied) (hσ : run'.SolvedBy σ) (hds : ∀ d ∈ ds, Suits σ d)
    (hΓ : env.Rel (fun _ => Scheme.Under σ) Γ) :
    ChecksEach Γ (Expr.mapTypesList (Ty.subst σ) ds) (ts.map (Ty.subst σ)) := by
  induction es generalizing run ts ds with
  | nil =>
    obtain ⟨rfl, _⟩ := inferEach_nil.mp h
    obtain rfl := List.length_eq_zero_iff.mp hlen
    exact .nil
  | cons e es ihs =>
    cases ts with
    | nil => cases hlen
    | cons t ts =>
      rw [List.forall_mem_cons] at ih hes ht hna
      obtain ⟨d, run₁, ds, hd, hrest, rfl⟩ := inferEach_cons.mp h
      rw [List.forall_mem_cons] at hds
      have hl := (infer_leads _ e hd hr he ht.1 hes.1.over).1
      have ht' : ∀ u ∈ ts, u.Over .ungenerated _ := fun u hu => (ht.2 u hu).mono hl.size
      have hl' := inferEach_leads (fun f _ => infer_leads _ f) hrest (Nat.succ.inj hlen) hl.wf
        (he.mono hl.size) ht' fun f hf => (hes.2 f hf).over
      exact .cons (ih.1 hd hr he ht.1 hes.1 hna.1 (hl'.solved σ hσ) hds.1 hΓ)
        (ihs ih.2 hrest (Nat.succ.inj hlen) hl.wf (he.mono hl.size) ht' hes.2 hna.2 hds.2)

theorem mapParams_subst (σ : Int → Ty) (ps : List Param) :
    ps.map (Expr.mapParam (Ty.subst σ)) = ps.map (Param.subst σ) :=
  List.map_congr_left fun p _ => congrArg (Param.mk p.name) (mapPresent_subst σ p.ty)

/-- What an item binds is its annotation, with the assignment put in. -/
theorem after_mapTypes (hΓ : env.Rel (fun _ => Scheme.Under σ) Γ) (d : Expr) :
    (env.after d).Rel (fun _ => Scheme.Under σ) (Γ.after (d.mapTypes (Ty.subst σ))) := by
  cases d with
  | letIn name annot value body ty =>
    cases body with
    | absent =>
      show (env.declare name annot).Rel _ (Γ.declare name (Expr.mapPresent (Ty.subst σ) annot))
      rw [mapPresent_subst]
      exact declare_under hΓ name annot
    | _ => exact hΓ
  | _ => exact hΓ

theorem inferItems_checks {es ds : List Expr} {x : Ty} (ih : ∀ e ∈ es, Checking e) (hne : es ≠ [])
    (h : (inferItems env x es).Yields run ds run') (hr : run.WF .ungenerated)
    (he : env.Over .ungenerated run.store.size) (hx : x.Over .ungenerated run.store.size)
    (hes : ∀ e ∈ es, e.Plain .ungenerated) (hna : ∀ e ∈ es, e.Unapplied) (hσ : run'.SolvedBy σ)
    (hds : ∀ d ∈ ds, Suits σ d) (hΓ : env.Rel (fun _ => Scheme.Under σ) Γ) :
    ChecksItems Γ (Expr.mapTypesList (Ty.subst σ) ds) (x.subst σ) := by
  induction es generalizing env Γ run ds with
  | nil => exact absurd rfl hne
  | cons e es ihs =>
    rw [List.forall_mem_cons] at ih hes hna
    cases es with
    | nil =>
      obtain ⟨d, hd, rfl⟩ := inferItems_last.mp h
      exact .last (ih.1 hd hr he hx hes.1 hna.1 hσ (hds d List.mem_cons_self) hΓ)
    | cons f es =>
      obtain ⟨d, run₁, ds, hd, hrest, rfl⟩ := inferItems_cons.mp h
      rw [List.forall_mem_cons] at hds
      have ha := Run.Leads.alloc hr 1
      obtain ⟨hl, hafter⟩ := infer_leads _ e hd ha.wf (he.mono ha.size) (over_fresh run) hes.1.over
      have hal := ha.trans hl
      have he' := hafter env (he.mono hal.size)
      have hl' := inferItems_leads (fun g _ => infer_leads _ g) (by simp) hrest hl.wf he'
        (hx.mono hal.size) fun g hg => (hes.2 g hg).over
      have htail := ihs ih.2 (by simp) hrest hl.wf he' (hx.mono hal.size) hes.2 hna.2 hds.2
        (after_mapTypes hΓ d)
      have hhead := ih.1 hd ha.wf (he.mono ha.size) (over_fresh run) hes.1 hna.1 (hl'.solved σ hσ)
        hds.1 hΓ
      rw [Expr.mapTypesList]
      -- there is an item after this one
      cases ds with
      | nil => cases htail
      | cons d' ds => exact .cons hhead htail

/-- A function that was inferred for a group checks against the type that it has inside the group,
under every solution of a run. -/
def FunctionChecks (inside : Env) (run : Run) (p : Scheme) (t : Binding) : Prop :=
  ∃ f, t.func? = some f ∧ ∀ {σ : Int → Ty} {Γ : Env}, run.SolvedBy σ → Suits σ f →
    inside.Rel (fun _ => Scheme.Under σ) Γ → Checks Γ (f.mapTypes (Ty.subst σ)) (p.body.subst σ)

theorem inferBindings_checks {bs ts : List Binding} {ps : List Scheme}
    (ih : ∀ b ∈ bs, ∀ f, b.func? = some f → Checking f)
    (h : (inferBindings env ps bs).Yields run ts run') (hlen : ps.length = bs.length)
    (hr : run.WF .ungenerated) (he : env.Over .ungenerated run.store.size)
    (hp : ∀ p ∈ ps, p.body.Over .ungenerated run.store.size)
    (hbs : ∀ b ∈ bs, ∀ f, b.func? = some f → f.Plain .ungenerated)
    (hna : ∀ b ∈ bs, ∀ f, b.func? = some f → f.Unapplied) :
    List.Forall₂ (FunctionChecks env run') ps ts := by
  induction bs generalizing run ps ts with
  | nil =>
    obtain ⟨rfl, _⟩ := inferBindings_nil.mp h
    obtain rfl := List.length_eq_zero_iff.mp hlen
    exact .nil
  | cons b bs ihs =>
    cases ps with
    | nil => cases hlen
    | cons p ps =>
      rw [List.forall_mem_cons] at ih hbs hna hp
      obtain ⟨d, run₁, ds, hd, hds, rfl⟩ := inferBindings_cons.mp h
      obtain ⟨name, g, params, result, body, ty, qs, r, c, rfl, hf, rfl⟩ :=
        inferBinding_yields.mp hd
      have hplain := hbs.1 _ rfl
      have hl := (infer_leads _ _ hf hr he hp.1 hplain.over).1
      have hp' : ∀ q ∈ ps, q.body.Over .ungenerated _ := fun q hq => (hp.2 q hq).mono hl.size
      have hl' := inferBindings_leads (fun b _ f _ => infer_leads _ f) hds (Nat.succ.inj hlen)
        hl.wf (he.mono hl.size) hp' fun b hb f hf => (hbs.2 b hb f hf).over
      refine .cons ⟨_, rfl, fun hσ hsuits hΓ => ?_⟩ (ihs ih.2 hds (Nat.succ.inj hlen) hl.wf
        (he.mono hl.size) hp' hbs.2 hna.2)
      exact ih.1 _ rfl hf hr he hp.1 hplain (hna.1 _ rfl) (hl'.solved _ hσ) hsuits hΓ

/-! ## Groups -/

/-- The functions of a group keep their names. -/
theorem GroupRun.names {V : Vocabulary} {x : Ty} {bs ts ds : List Binding} {body b : Expr}
    {ps gs : List Scheme} {run₁ run₂ run₃ : Run}
    (h : GroupRun V env x bs body run ps run₁ ts run₂ run₃ gs ds b run') (f : Ty → Ty) :
    (Expr.mapTypesBindings f ds).map (·.name) = bs.map (·.name) := by
  rw [Expr.mapTypesBindings_eq, List.map_map, ← inferBindings_names h.inferred h.length,
    ← h.generalized.names]
  exact List.map_congr_left fun d _ => d.name_mapTypes

variable {s : Store}

/-- The generic types of a group keep their meaning when an assignment that suits the tree is put in. -/
theorem GeneralizedAll.under {bs ts ds : List Binding} {ps gs : List Scheme} {body : Expr} {ty : Ty}
    (h : GeneralizedAll s env bs ps ts gs ds) (hs : s.Acyclic) (hb : ∀ b ∈ bs, b.scheme = none)
    (hsuits : Suits σ (.group ds body ty)) :
    List.Forall₂ (Scheme.Under σ) gs (gs.map (Expr.mapScheme (Ty.subst σ))) := by
  have hgenerated : ∀ g ∈ gs, ∀ p ∈ g.params, ∃ k : Nat, p = genericName k := by
    have hclose := h.closes hs hb
    clear hsuits h hb
    induction hclose with
    | nil => simp
    | cons hc _ ih =>
      obtain ⟨_, _, hc⟩ := hc
      exact List.forall_mem_cons.mpr ⟨hc.generated, ih⟩
  rw [List.forall₂_map_right_iff, List.forall₂_same]
  intro g hg
  refine Scheme.under_subst fun i _ p hp hmem => ?_
  have hclear := (Expr.every_group.mp hsuits.clear).1 g (h.mem_generics hg body ty) p hmem i hp
  obtain ⟨k, rfl⟩ := hgenerated g hg p hmem
  exact hclear k rfl

/-- The types that functions have inside their group are instances of their generic types. -/
theorem Rereads.atLeast {τ υ : Int → Ty} {ps gs gs' : List Scheme} (hr : Rereads s env σ τ υ)
    (h : List.Forall₂ (fun p g => ∃ scope store?, Closes s env p.body scope g store?) ps gs)
    (hg : List.Forall₂ (Scheme.Under σ) gs gs') :
    List.Forall₂ (Scheme.AtLeast .var) gs'
      ((ps.map fun p => p.body.subst fun i => (τ i).subst σ).map .mono) := by
  induction h generalizing gs' with
  | nil =>
    cases hg
    exact .nil
  | @cons p g ps gs hc _ ih =>
    obtain ⟨scope, store?, hc⟩ := hc
    cases hg with
    | @cons _ g' _ gs' hu hrest =>
      -- a type inside the group has no parameters; it is the instance at what the names stand for
      refine .cons (fun args _ => ?_) (ih hrest)
      have hlen : ((s.generalizable env p.body).map υ).length = g.params.length := by
        rw [List.length_map, hc.length]
      refine ⟨_, hlen.trans hu.length.symm, ?_⟩
      rw [Scheme.applyUnder_eq_apply fun _ _ => rfl, hu.apply_eq _ hlen, hr.applyUnder hc,
        Scheme.apply_mono]

/-- The functions that are recorded for a group check against the generic types that they get. -/
theorem GeneralizedAll.checks {bs ts ds : List Binding} {ps gs : List Scheme} {inside Δ : Env}
    (h : GeneralizedAll s env bs ps ts gs ds) (hs : s.Acyclic) (ho : s.Over .ungenerated)
    (hσ : s.SolvedBy σ) (hb : ∀ b ∈ bs, b.scheme = none) (hp : ∀ p ∈ ps, p.body.Whole)
    (hsuits : ∀ d ∈ ds, ∀ f, d.func? = some f → Suits σ f)
    (hfuns : List.Forall₂ (FunctionChecks inside run) ps ts)
    (hrun : ∀ τ υ, Rereads s env σ τ υ → run.SolvedBy fun i => (τ i).subst σ)
    (hinside : ∀ τ υ, Rereads s env σ τ υ →
      ∃ Γ, inside.Rel (fun _ => Scheme.Under fun i => (τ i).subst σ) Γ ∧ Δ.AtLeast Γ) :
    ChecksFunctions Δ (Expr.mapTypesBindings (Ty.subst σ) ds)
      (gs.map (Expr.mapScheme (Ty.subst σ))) := by
  induction h with
  | nil => exact .nil
  | @cons b t d p g bs ts ds ps gs hg _ ih =>
    rw [List.forall_mem_cons] at hb hp hsuits
    cases hfuns with
    | cons hfun hrest =>
      obtain ⟨f, hf, hcheck⟩ := hfun
      rw [hb.1] at hg
      obtain ⟨τ, υ, hread, hw, hc, hds, hdf, hbody⟩ := hg.reread hf hs ho hσ
      have hreread := (hsuits.1 _ hdf).reread hw hc
      obtain ⟨Γ, hΓ, hat⟩ := hinside τ υ hread
      -- the function as it was inferred, read through the names
      have hchecks := Checks.weaken _ (hcheck (hrun τ υ hread) hreread hΓ) hat
      have hgbody : (Expr.mapScheme (Ty.subst σ) g).body = p.body.subst fun i => (τ i).subst σ := by
        rw [← hbody]
        exact mapPresent_subst σ g.body
      rw [← Expr.mapTypes_subst, ← hgbody] at hchecks
      refine .cons ?_ ?_ ?_ hchecks (ih hb.2 hp.2 hsuits.2 hrest)
      · rw [Binding.scheme_mapTypes, hds]
        rfl
      · rw [Binding.func?_mapTypes, hdf]
        rfl
      · rw [hgbody]
        exact hp.1.subst fun i _ => hreread.whole i

/-- The tree of a group checks if those of its functions and of its body do. -/
theorem group_checks {bs : List Binding} {body d : Expr} {ty x : Ty}
    (ihf : ∀ b ∈ bs, ∀ f, b.func? = some f → Checking f) (ihb : Checking body)
    (h : (infer env x (.group bs body ty)).Yields run d run') (hr : run.WF .ungenerated)
    (he : env.Over .ungenerated run.store.size) (hx : x.Over .ungenerated run.store.size)
    (hpl : (Expr.group bs body ty).Plain .ungenerated) (hna : (Expr.group bs body ty).Unapplied)
    (hσ : run'.SolvedBy σ) (hsuits : Suits σ d) (hΓ : env.Rel (fun _ => Scheme.Under σ) Γ) :
    Checks Γ (d.mapTypes (Ty.subst σ)) (x.subst σ) := by
  obtain ⟨hn, hfuncs, hbody⟩ := Expr.every_group.mp hpl
  obtain ⟨_, hnaf, hnab⟩ := Expr.every_group.mp hna
  have hnone := Expr.scheme_eq_none hn.2
  obtain ⟨ps, run₁, ts, run₂, run₃, gs, ds, b, hg, rfl⟩ :=
    group_run (fun _ _ f _ => infer_leads _ f) (infer_leads _ body) h hr he hx (Expr.Plain.over hpl)
  obtain ⟨hsf, hsb⟩ := hsuits.group
  have hσ₃ : run₃.store.SolvedBy σ := (hg.final.solved σ hσ).store
  have hs := hg.settled.wf.acyclic
  have hunder := hg.generalized.under hs hnone hsuits
  have hmono := placeholders_mono hg.placed hnone
  have hfuns := inferBindings_checks ihf hg.inferred hg.length hg.opened.wf hg.inside hg.bodies hfuncs
    hnaf
  have hnames := hg.names (Ty.subst σ)
  rw [Expr.mapTypes]
  refine @Checks.group _ _ (gs.map (Expr.mapScheme (Ty.subst σ))) _ _ _ ?_ ?_
  · -- the names of a function's own variables reread the solution, so the function is taken at
    -- another instance of what was inferred; outside the group nothing is read differently
    rw [Env.extendGroup_congr hnames]
    refine hg.generalized.checks hs hg.settled.wf.store hσ₃ hnone
      (fun p hp => (hg.bodies p hp).whole not_false) hsf hfuns
      (fun τ υ hread => (hg.solved _).mp ⟨hread.solvedBy hs, by simp [hg.empty]⟩) fun τ υ hread => ?_
    have hkeep : env.Rel (fun _ => Scheme.Under fun i => (τ i).subst σ) Γ :=
      hΓ.imp fun y g g' hy hu => hu.congr fun i hi => (hread.eq_of_bound hσ₃ hy hi).symm
    refine ⟨_, hkeep.extendGroup rfl (forall₂_under_mono hmono) fun _ _ _ _ hu => hu, ?_⟩
    exact Env.Rel.extendGroup (Env.AtLeast.refl Γ) rfl
      (hread.atLeast (hg.generalized.closes hs hnone) hunder) fun _ _ _ _ hat => hat
  · rw [Env.extendGroup_congr hnames]
    exact ihb hg.continued hg.settled.wf hg.outside (hx.mono hg.before.size) hbody hnab hσ hsb
      (hΓ.extendGroup rfl hunder fun _ _ _ _ hu => hu)

theorem var_checks (name : String) (typeArgs : Option (List Ty)) (ty : Ty) :
    Checking (.var name typeArgs ty) := by
  intro env x run run' d h _ _ _ _ hna σ Γ hσ _ hΓ
  obtain rfl : typeArgs = none := Expr.every_var.mp hna
  obtain ⟨g, run₁, hg, _, _, rfl, rfl⟩ := infer_var.mp h
  obtain ⟨g', hg', hunder⟩ := hΓ.lookup hg
  have hl : ((Store.freshList g.params.length run.store).1.map (Ty.subst σ)).length =
      g.params.length := by
    rw [List.length_map, length_freshList]
  rw [(Run.solvedBy_emit.mp hσ).2, Scheme.subst_apply, ← hunder.apply_eq _ hl]
  exact .var hg' (hl.trans hunder.length.symm)

theorem func_checks {params : List Param} {result ty : Ty} {body : Expr} (ih : Checking body) :
    Checking (.func params result body ty) := by
  intro env x run run' d h hr he hx hpl hna σ Γ hσ hsuits hΓ
  obtain ⟨ps, inner, run₁, r, run₂, b, run₃, hp, hres, hb, rfl, rfl⟩ := infer_func.mp h
  obtain ⟨hn, hbody⟩ := Expr.every_func.mp hpl
  obtain ⟨hl₁, hps, hinner⟩ := openParams_leads hp hr he hn.1.params
  obtain ⟨hl₂, hro⟩ := orFresh_leads hres hl₁.wf hn.1.result
  obtain ⟨hσ₃, heq⟩ := Run.solvedBy_emit.mp hσ
  have hclosed : ∀ p ∈ params, p.ty ≠ .absent → p.ty.Over .all 0 := fun p hp hne =>
    .of_closed ((hn.1.params p hp hne).closed not_false)
  have hinnerΓ := (openParams_typed hp hclosed hΓ).2
  have hbt := ih hb hl₂.wf (hinner.mono hl₂.size) hro hbody (Expr.every_func.mp hna).2 hσ₃
    hsuits.func hinnerΓ
  have hmap : (ps.map (·.ty)).map (Ty.subst σ) = (ps.map (Param.subst σ)).map (·.ty) := by
    rw [List.map_map, List.map_map]
    rfl
  rw [heq, Ty.subst_function, hmap, Expr.mapTypes, mapParams_subst, mapPresent_subst]
  refine .func (fun q hq => ?_) ((hro.whole not_false).subst fun i _ => hsuits.whole i) hbt
  obtain ⟨p, hp, rfl⟩ := List.mem_map.mp hq
  exact ((hps p hp).whole not_false).subst fun i _ => hsuits.whole i

theorem call_checks {callee : Expr} {args : List Expr} {ty : Ty} (ihf : Checking callee)
    (iha : ∀ a ∈ args, Checking a) : Checking (.call callee args ty) := by
  intro env x run run' d h hr he hx hpl hna σ Γ hσ hsuits hΓ
  obtain ⟨f, run₁, es, hc, rfl⟩ := call_run (infer_leads _ callee) (fun a _ => infer_leads _ a) h hr he hx
    (Expr.Plain.over hpl)
  obtain ⟨_, hcallee, hargs⟩ := Expr.every_call.mp hpl
  obtain ⟨_, hnaf, hnaa⟩ := Expr.every_call.mp hna
  obtain ⟨hsf, hsa⟩ := hsuits.call
  have hct := ihf hc.called hc.opened.wf (he.mono hc.opened.size) hc.wanted hcallee hnaf
    (hc.final.solved σ hσ) hsf hΓ
  rw [Ty.subst_function] at hct
  exact .call hct (inferEach_checks iha hc.given (length_freshList _ _) hc.before.wf
    (he.mono hc.before.size) hc.fresh hargs hnaa hσ hsa hΓ)

theorem let_alone_checks {name : String} {annot ty : Ty} {value : Expr} (ih : Checking value) :
    Checking (.letIn name annot value .absent ty) := by
  intro env x run run' d h hr he hx hpl hna σ Γ hσ hsuits hΓ
  obtain ⟨hn, hvalue, _⟩ := Expr.every_letIn.mp hpl
  obtain ⟨_, hnav, _⟩ := Expr.every_letIn.mp hna
  obtain ⟨a, run₁, v, run₂, ha, hv, rfl, rfl⟩ := infer_let_alone.mp h
  obtain ⟨hl₁, hao⟩ := orFresh_leads ha hr hn.1.annot
  obtain ⟨hσ₂, heq⟩ := Run.solvedBy_emit.mp hσ
  rw [heq, Expr.mapTypes, mapPresent_subst]
  exact .letAlone ((hao.whole not_false).subst fun i _ => hsuits.whole i)
    (ih hv hl₁.wf (he.mono hl₁.size) hao hvalue hnav hσ₂ hsuits.letIn.1 hΓ)

theorem let_checks {name : String} {annot ty : Ty} {value body : Expr} (hab : body.isAbsent = false)
    (ihv : Checking value) (ihb : Checking body) : Checking (.letIn name annot value body ty) := by
  intro env x run run' d h hr he hx hpl hna σ Γ hσ hsuits hΓ
  obtain ⟨_, hvalue, hbody⟩ := Expr.every_letIn.mp hpl
  obtain ⟨_, hnav, hnab⟩ := Expr.every_letIn.mp hna
  obtain ⟨a, run₁, v, run₂, b, hl, rfl⟩ := let_run hab (infer_leads _ value) (infer_leads _ body) h hr he hx
    (Expr.Plain.over hpl)
  obtain ⟨hsv, hsb⟩ := hsuits.letIn
  rw [Expr.mapTypes, mapPresent_subst]
  exact .letIn (by rw [Expr.isAbsent_mapTypes, infer_isAbsent hl.continued])
    ((hl.wanted.whole not_false).subst fun i _ => hsuits.whole i)
    (ihv hl.valued hl.opened.wf (he.mono hl.opened.size) hl.wanted hvalue hnav (hl.final.solved σ hσ) hsv
      hΓ)
    (ihb hl.continued hl.before.wf hl.inside (hx.mono hl.before.size) hbody hnab hσ hsb
      (declare_under hΓ name a))

theorem array_checks {item ty : Ty} {items : List Expr} (ih : ∀ e ∈ items, Checking e) :
    Checking (.array item items ty) := by
  intro env x run run' d h hr he hx hpl hna σ Γ hσ hsuits hΓ
  obtain ⟨a, run₁, es, run₂, ha, hes, rfl, rfl⟩ := infer_array.mp h
  obtain ⟨hn, hitems⟩ := Expr.every_array.mp hpl
  obtain ⟨hl₁, hao⟩ := orFresh_leads ha hr hn.1.item
  obtain ⟨hσ₂, heq⟩ := Run.solvedBy_emit.mp hσ
  rw [heq, Ty.subst_array, Expr.mapTypes, mapPresent_subst]
  exact .array ((hao.whole not_false).subst fun i _ => hsuits.whole i)
    (inferAll_checks ih hes hl₁.wf (he.mono hl₁.size) hao hitems (Expr.every_array.mp hna).2 hσ₂
      hsuits.array hΓ)

theorem seq_checks {effect value : Expr} {ty : Ty} (ihe : Checking effect) (ihv : Checking value) :
    Checking (.seq effect value ty) := by
  intro env x run run' d h hr he hx hpl hna σ Γ hσ hsuits hΓ
  obtain ⟨f, run₁, v, hs, rfl⟩ := seq_run (infer_leads _ effect) (infer_leads _ value) h hr he hx
    (Expr.Plain.over hpl)
  obtain ⟨_, heffect, hvalue⟩ := Expr.every_seq.mp hpl
  obtain ⟨_, hnae, hnav⟩ := Expr.every_seq.mp hna
  obtain ⟨hse, hsv⟩ := hsuits.seq
  exact .seq
    (ihe hs.effected hs.opened.wf (he.mono hs.opened.size) (over_fresh run) heffect hnae
      (hs.final.solved σ hσ) hse hΓ)
    (ihv hs.continued hs.before.wf (he.mono hs.before.size) (hx.mono hs.before.size) hvalue hnav hσ hsv hΓ)

/-- The tree of an expression checks. -/
theorem infer_checks (e : Expr) : Checking e := by
  induction e with
  | absent => exact fun h => absurd h not_infer_absent
  | other kind => exact fun h => absurd h not_infer_other
  | int value ty =>
    intro env x run run' d h _ _ _ _ _ σ Γ hσ _ _
    obtain ⟨rfl, rfl⟩ := infer_int.mp h
    rw [(Run.solvedBy_emit.mp hσ).2]
    exact .int
  | str value ty =>
    intro env x run run' d h _ _ _ _ _ σ Γ hσ _ _
    obtain ⟨rfl, rfl⟩ := infer_str.mp h
    rw [(Run.solvedBy_emit.mp hσ).2]
    exact .str
  | var name typeArgs ty => exact var_checks name typeArgs ty
  | func params result body ty ih => exact func_checks ih
  | call callee args ty ihf iha => exact call_checks ihf iha
  | letIn name annot value body ty ihv ihb =>
    cases hab : body.isAbsent with
    | true =>
      obtain rfl := Expr.isAbsent_iff.mp hab
      exact let_alone_checks ihv
    | false => exact let_checks hab ihv ihb
  | group bs body ty ihf ihb =>
    intro env x run run' d h hr he hx hpl hna σ Γ hσ hsuits hΓ
    exact group_checks ihf ihb h hr he hx hpl hna hσ hsuits hΓ
  | array item items ty ih => exact array_checks ih
  | seq effect value ty ihe ihv => exact seq_checks ihe ihv
  | block items ty ih =>
    intro env x run run' d h hr he hx hpl hna σ Γ hσ hsuits hΓ
    obtain ⟨hne, es, hes, rfl⟩ := infer_block.mp h
    exact .block (inferItems_checks ih hne hes hr he hx (Expr.every_block.mp hpl).2
      (Expr.every_block.mp hna).2 hσ hsuits.block hΓ)

end

end Polytype
