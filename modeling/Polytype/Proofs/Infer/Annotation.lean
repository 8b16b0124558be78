import Mathlib
import Polytype.Proofs.Expr.References
import Polytype.Proofs.Infer.Invariant
import Polytype.Proofs.Infer.Renaming

/-!
# Annotated programs

The tree of an annotated program records a generic type for every function of a group. The main result,
`annotate_uses`, says what this means to the variables that refer to the function: their types are
instances of it. A generic type that was given has this property without conditions. One that was
inferred has it if no name of its parameters is used by the program or its environment: its variables
stand for types that are found later, and a parameter that was given to a function around may be among
those, under the same name.

The induction is over the expression, for every solution `σ` of the equations that are there after it
was inferred. A group changes its functions after they were inferred: it replaces the variables that it
generalises over by names. `Rereads` says of such a replacement that it keeps whatever the environment
mentions; so what is read through the names is read through another solution of the same equations, and
uses at the types that the functions have inside the group become uses of the generic types.
-/

namespace Polytype

open InferM

/-! ## Instances of what is recorded -/

/-- A function was given its generic type, or none of the type's parameters is among some names. -/
def Recorded.Clear (C : String → Prop) : Recorded → Prop
  | .given _ => True
  | .inferred g => ∀ p ∈ g.params, ¬ C p

/-- Under an assignment a type is an instance of what is recorded for a function, if that is clear of
some names. -/
def Recorded.Covers (C : String → Prop) (σ : Int → Ty) (f : Recorded) (t : Ty) : Prop :=
  f.Clear C → ∃ args : List Ty,
    args.length = f.generic.params.length ∧ f.generic.applyUnder σ args = t.subst σ

section

variable {C : String → Prop} {σ τ υ : Int → Ty}

/-- Uses of functions are carried from an assignment after a substitution to the assignment. -/
abbrev Recorded.CarriesUnder (C : String → Prop) (σ τ : Int → Ty) : Recorded → Recorded → Prop :=
  Carries (Recorded.Covers C fun i => (τ i).subst σ) (Recorded.Covers C σ) τ

/-- Instances stay instances of a generic type whose variables keep their meaning. -/
theorem Recorded.carries_self {f : Recorded}
    (hf : ∀ i ∈ f.generic.body.vars, (τ i).subst σ = σ i) : f.CarriesUnder C σ τ f := by
  intro t h hclear
  obtain ⟨args, hlen, heq⟩ := h hclear
  refine ⟨args, hlen, ?_⟩
  rw [Ty.subst_subst, ← heq]
  exact (Scheme.applyUnder_congr hf args).symm

theorem Recorded.carries_given {g : Scheme} (hg : g.body.vars = []) :
    (Recorded.given g).CarriesUnder C σ τ (.given g) := by
  refine carries_self fun i hi => ?_
  rw [show (Recorded.given g).generic.body.vars = [] from hg] at hi
  cases hi

/-- Instances stay instances of a generic type whose variables are replaced by types that do not mention
its parameters. -/
theorem Recorded.carries_inferred {g : Scheme}
    (hτ : ∀ i, ∀ c ∈ (τ i).consts, C c ∨ c ∉ g.params) :
    (Recorded.inferred g).CarriesUnder C σ τ (Recorded.subst τ (.inferred g)) := by
  intro t h hclear
  have hnew : ∀ p ∈ g.params, ¬ C p := hclear
  obtain ⟨args, hlen, heq⟩ := h hnew
  refine ⟨args, hlen, ?_⟩
  rw [Ty.subst_subst, ← heq]
  show (Expr.mapPresent (Ty.subst τ) g.body).inst (Scheme.argument? g.params args) σ = _
  rw [mapPresent_subst, Ty.inst_subst]
  refine Ty.inst_congr (fun _ _ => rfl) fun i _ => Ty.inst_eq_subst fun c hc => ?_
  refine Scheme.argument?_of_not_mem fun hp => ?_
  rcases hτ i c hc with hC | hn
  · exact hnew c hp hC
  · exact hn hp

/-! ## Reading a store after generalisation -/

/-- To replace variables by `τ` and then by `σ` is to resolve them and then to replace by `υ`, which
differs from `σ` only at variables that are open to generalisation. -/
structure Rereads (s : Store) (env : Env) (σ τ υ : Int → Ty) : Prop where
  reads : ∀ i, (τ i).subst σ = (s.resolve (.var i)).subst υ
  keeps : ∀ v, (s.owns v = true → v ∈ env.varsUnder s.resolve) → υ v = σ v

variable {s : Store} {env : Env}

theorem Rereads.self (hσ : s.SolvedBy σ) : Rereads s env σ .var σ :=
  ⟨fun i => (Store.subst_resolve hσ (.var i)).symm, fun _ _ => rfl⟩

/-- The store in which a function's variables are named. -/
theorem Closes.rereads {t : Ty} {scope : Expr} {g : Scheme} {s' : Store}
    (h : Closes s env t scope g (some s')) :
    Rereads s env σ (fun i => s'.resolve (.var i))
      fun v => (named (s.generalizable env t) g.params v).subst σ := by
  refine ⟨fun i => ?_, fun v hv => ?_⟩
  · rw [h.store s' rfl, Ty.subst_subst]
  · have hnot : v ∉ s.generalizable env t := by
      intro hm
      obtain ⟨⟨_, howns⟩, hout⟩ := Store.mem_generalizable.mp hm
      exact hout (hv howns)
    rw [named, assign_of_not_mem hnot, Ty.subst_var]

theorem Rereads.subst (h : Rereads s env σ τ υ) (t : Ty) :
    t.subst (fun i => (τ i).subst σ) = (s.resolve t).subst υ := by
  rw [Store.resolve_eq_subst, Ty.subst_subst]
  exact Ty.subst_congr fun i _ => h.reads i

theorem Rereads.solvedBy (h : Rereads s env σ τ υ) (hs : s.Acyclic) :
    s.SolvedBy fun i => (τ i).subst σ := by
  have : (fun i => (τ i).subst σ) = fun i => (s.resolve (.var i)).subst υ := funext h.reads
  rw [this]
  exact Store.solvedBy_resolve hs υ

/-- The variables of what the environment binds keep their meaning. -/
theorem Rereads.eq_of_bound (h : Rereads s env σ τ υ) (hσ : s.SolvedBy σ) {g : Scheme} {x : String}
    (hx : env.lookup? x = some (some g)) {i : Int} (hi : i ∈ g.body.vars) : (τ i).subst σ = σ i := by
  rw [h.reads i, ← Ty.subst_var σ i, ← Store.subst_resolve hσ (.var i)]
  refine Ty.subst_congr fun v hv => h.keeps v fun _ => ?_
  refine Env.mem_varsUnder.mpr ⟨x, _, hx, ?_⟩
  rw [Store.resolve_eq_subst]
  exact Ty.mem_vars_subst.mpr ⟨i, hi, hv⟩

theorem Rereads.carries_bound (h : Rereads s env σ τ υ) (hσ : s.SolvedBy σ) {f : Recorded}
    {x : String} (hx : env.lookup? x = some (some f.generic)) : f.CarriesUnder C σ τ f :=
  Recorded.carries_self fun _ hi => h.eq_of_bound hσ hx hi

/-- The type that a function has inside its group is an instance of its generic type. -/
theorem Rereads.applyUnder (h : Rereads s env σ τ υ) {t : Ty} {scope : Expr} {g : Scheme}
    {store? : Option Store} (hc : Closes s env t scope g store?) :
    g.applyUnder σ ((s.generalizable env t).map υ) = t.subst fun i => (τ i).subst σ := by
  rw [hc.applyUnder (by rw [List.length_map, hc.length]), h.subst]
  refine Ty.subst_congr fun v hv => ?_
  by_cases hm : v ∈ s.generalizable env t
  · exact assign_map hm
  · rw [assign_of_not_mem hm]
    refine (h.keeps v fun howns => ?_).symm
    by_contra hout
    exact hm (Store.mem_generalizable.mpr ⟨⟨hv, howns⟩, hout⟩)

/-- Uses of a function at the type it has inside its group are instances of its generic type. -/
theorem Rereads.carries_closed (h : Rereads s env σ τ υ) {t : Ty} {scope : Expr} {g : Scheme}
    {store? : Option Store} (hc : Closes s env t scope g store?) :
    (Recorded.inferred (.mono t)).CarriesUnder C σ τ (.inferred g) := by
  intro u hu _
  obtain ⟨_, _, heq⟩ := hu fun p hp => absurd hp List.not_mem_nil
  refine ⟨(s.generalizable env t).map υ, by rw [List.length_map]; exact hc.length.symm, ?_⟩
  show g.applyUnder σ _ = _
  rw [h.applyUnder hc, Ty.subst_subst, ← heq]
  exact (Scheme.applyUnder_mono t _ _).symm

end

/-! ## Scopes and environments -/

/-- The functions that names refer to are bound in an environment to the generic types recorded. -/
def Scope.Matches (sc : Scope) (env : Env) : Prop :=
  ∀ x f, sc x = some f → env.lookup? x = some (some f.generic)

namespace Scope.Matches

variable {sc : Scope} {env : Env}

theorem empty (env : Env) : Scope.empty.Matches env := fun _ _ h => by cases h

theorem extend (h : sc.Matches env) (x : String) {o : Option Recorded} {g : Scheme}
    (ho : ∀ f, o = some f → f.generic = g) : (sc.bind x o).Matches (env.extend x (some g)) := by
  intro y f hf
  rw [Env.lookup?_extend]
  rw [Scope.bind] at hf
  by_cases hy : y = x
  · subst hy
    rw [Function.update_self] at hf
    rw [if_pos rfl, ho f hf]
  · rw [Function.update_of_ne hy] at hf
    rw [if_neg (Ne.symm hy)]
    exact h y f hf

theorem declare (h : sc.Matches env) (x : String) (t : Ty) :
    (sc.bind x none).Matches (env.declare x t) := h.extend x (by simp)

theorem openParams {ps qs : List Param} {inner : Env} {run run' : Run} (h : sc.Matches env)
    (hp : (Polytype.openParams env ps).Yields run (qs, inner) run') :
    qs.map (·.name) = ps.map (·.name) ∧ (sc.bindParams ps).Matches inner := by
  induction ps generalizing sc env run qs inner with
  | nil =>
    obtain ⟨⟨⟩, rfl⟩ := openParams_nil.mp hp
    exact ⟨rfl, h⟩
  | cons p ps ih =>
    obtain ⟨t, run₁, qs, inner, _, hrest, ⟨⟩⟩ := openParams_cons.mp hp
    obtain ⟨hnames, hinner⟩ := ih (h.declare p.name t) hrest
    exact ⟨congrArg (p.name :: ·) hnames, hinner⟩

theorem after {x : Ty} {e d : Expr} {run run' : Run} (h : sc.Matches env)
    (hd : (infer env x e).Yields run d run') : (sc.after e).Matches (env.after d) := by
  rw [Scope.after]
  cases hb : e.boundAfter? with
  | none =>
    rw [Env.after_eq_self ((infer_boundAfter hd).trans hb)]
    exact h
  | some name =>
    obtain ⟨annot, value, ty, rfl⟩ := Expr.boundAfter?_eq_some hb
    obtain ⟨a, run₁, v, run₂, _, _, rfl, rfl⟩ := infer_let_alone.mp hd
    exact h.declare name a

theorem extendGroup (h : sc.Matches env) (bs : List Binding) {fs : List Recorded}
    {gs : List Scheme} (hfs : fs.map (·.generic) = gs) :
    (sc.bindGroup bs fs).Matches (env.extendGroup bs gs) := by
  induction bs generalizing sc env fs gs with
  | nil =>
    rw [Scope.bindGroup, Env.extendGroup]
    · exact h
    · simp
    · simp
  | cons b bs ih =>
    subst hfs
    cases fs with
    | nil =>
      rw [Scope.bindGroup, List.map_nil, Env.extendGroup]
      · exact h
      · simp
      · simp
    | cons f fs => exact ih (h.extend b.name fun f' hf' => by cases hf'; rfl) rfl

end Scope.Matches

/-! ## Functions of groups -/

/-- What is recorded for a function that has a generic type in the program or has none. -/
def Recorded.of (own : Option Scheme) (g : Scheme) : Recorded :=
  match own with
  | some _ => .given g
  | none => .inferred g

/-- What is recorded for the functions of a group. -/
def recordedAll (bs : List Binding) (gs : List Scheme) : List Recorded :=
  List.zipWith (fun b g => Recorded.of b.scheme g) bs gs

theorem map_generic_recordedAll {bs : List Binding} {gs : List Scheme} (h : gs.length = bs.length) :
    (recordedAll bs gs).map (·.generic) = gs := by
  induction bs generalizing gs with
  | nil =>
    obtain rfl := List.length_eq_zero_iff.mp h
    rfl
  | cons b bs ih =>
    cases gs with
    | nil => cases h
    | cons g gs =>
      rw [recordedAll, List.zipWith_cons_cons, List.map_cons, ← recordedAll, ih (Nat.succ.inj h)]
      cases b.scheme <;> rfl

section

variable {C : String → Prop} {s : Store} {env : Env} {σ τ υ : Int → Ty}

theorem Generalized.carries {b t d : Binding} {p g : Scheme}
    (h : Generalized s env p b.scheme t g d) (hs : s.Acyclic) (hr : Rereads s env σ τ υ)
    (hp : Placed b p) (hclosed : ∀ g, b.scheme = some g → g.body.vars = []) :
    (Recorded.of b.scheme p).CarriesUnder C σ τ (.of b.scheme g) := by
  rcases hp with hown | ⟨hown, hmono⟩
  · rw [hown] at h ⊢
    cases h
    exact Recorded.carries_given (hclosed _ hown)
  · rw [hown] at h ⊢
    rw [hmono]
    cases h with
    | closed hc => exact hr.carries_closed (closing_closes hs hc)
    | named hc => exact hr.carries_closed (closing_closes hs hc)

/-- Uses of the functions inside their group are carried to what is recorded for them. -/
theorem GeneralizedAll.carries {bs ts ds : List Binding} {ps gs : List Scheme}
    (h : GeneralizedAll s env bs ps ts gs ds) (hs : s.Acyclic) (hr : Rereads s env σ τ υ)
    (hp : List.Forall₂ Placed bs ps) (hclosed : ∀ b ∈ bs, ∀ g, b.scheme = some g → g.body.vars = []) :
    List.Forall₂ (Recorded.CarriesUnder C σ τ) (recordedAll bs ps) (recordedAll bs gs) := by
  induction h with
  | nil => exact .nil
  | cons hg _ ih =>
    rw [List.forall_mem_cons] at hclosed
    cases hp with
    | cons hp hrest => exact .cons (hg.carries hs hr hp hclosed.1) (ih hrest hclosed.2)

/-- A function of a group and the function inferred for it, used as the scope says under every solution of
a run. -/
inductive FunctionUses (C : String → Prop) (sc : Scope) (run : Run) : Binding → Binding → Prop
  | intro {name : String} {own : Option Scheme} {ps ps' : List Param} {r r' t t' : Ty} {b b' : Expr} :
      (∀ σ, run.SolvedBy σ →
        Uses (Recorded.Covers C σ) sc (.func ps r b t) (.func ps' r' b' t')) →
      FunctionUses C sc run (.fn name own ps r b t) (.fn name none ps' r' b' t')

/-- A tree is used as before when its variables are replaced by types that do not mention the parameters
of groups inside. -/
theorem Uses.reread {sc sc' : Scope} {e d : Expr}
    (h : Uses (Recorded.Covers C fun i => (τ i).subst σ) sc e d)
    (hsc : sc.Rel (Recorded.CarriesUnder C σ τ) sc') (he : e.GivesClosed)
    (hτ : ∀ i, ∀ c ∈ (τ i).consts, C c ∨ c ∉ d.groupParams) :
    Uses (Recorded.Covers C σ) sc' e (d.mapTypes (Ty.subst τ)) := by
  refine Uses.map e h hsc (he.imp fun n hn g hg => ⟨hn g hg, Recorded.carries_given (hn g hg)⟩) ?_
  intro n hn g hg
  refine Recorded.carries_inferred fun i c hc => ?_
  rcases hτ i c hc with hC | hout
  · exact .inl hC
  · exact .inr fun hp => hout (mem_groupParams hn hg hp)

/-- After generalisation the functions of a group are used as is recorded for them. -/
theorem GeneralizedAll.uses {V : Vocabulary} {run : Run} {sc sc' : Scope} {bs ts ds : List Binding}
    {ps gs : List Scheme} (h : GeneralizedAll s env bs ps ts gs ds) (hs : s.Acyclic) (ho : s.Over V)
    (hσ : s.SolvedBy σ)
    (hrun : ∀ τ υ, Rereads s env σ τ υ → run.SolvedBy fun i => (τ i).subst σ)
    (hsc : ∀ τ υ, Rereads s env σ τ υ → sc.Rel (Recorded.CarriesUnder V.consts σ τ) sc')
    (hfuns : List.Forall₂ (FunctionUses V.consts sc run) bs ts)
    (hclosed : ∀ b ∈ bs, ∀ f, b.func? = some f → f.GivesClosed) :
    UsesFunctions (Recorded.Covers V.consts σ) sc' bs (recordedAll bs gs) ds := by
  have hself : Rereads s env σ .var σ := .self hσ
  have hsame : sc.Rel (fun f f' => ∀ t, f.Covers V.consts σ t → f'.Covers V.consts σ t) sc' :=
    (hsc _ _ hself).imp fun f f' hc t ht => by simpa [Ty.subst_id] using hc t ht
  induction h with
  | nil => exact .nil
  | @cons b t d p g bs ts ds ps gs hg _ ih =>
    rw [List.forall_mem_cons] at hclosed
    cases hfuns with
    | cons hfun hrest =>
      have htail := ih hrest hclosed.2
      cases hfun with
      | @intro name own qs qs' r r' x x' c c' huse =>
        have hgives : (Expr.func qs r c x).GivesClosed := hclosed.1 _ rfl
        have hplain := (huse σ (hrun _ _ hself)).mono (fun _ _ hc => hc) hsame hgives
        replace hg : Generalized s env p own _ g d := hg
        cases hg with
        | given => exact .cons rfl hplain htail
        | closed _ => exact .cons rfl hplain htail
        | @named _ store _ _ _ _ _ _ hc =>
          have hcl := closing_closes hs hc
          have hread : Rereads s env σ (fun i => store.resolve (.var i)) _ := hcl.rereads
          have hmap := (huse _ (hrun _ _ hread)).reread (hsc _ _ hread) hgives fun i c hc => by
            rw [hcl.store store rfl] at hc
            rcases Ty.mem_consts_subst.mp hc with hc | ⟨v, _, hc⟩
            · exact .inl (ho.mem_consts_resolve hs hc)
            · exact .inr (hcl.apart c (mem_consts_named hc))
          have hresolve : Ty.subst (fun i => store.resolve (.var i)) = store.resolve :=
            funext fun u => (Store.resolve_eq_subst store u).symm
          rw [hresolve, Expr.mapTypes] at hmap
          exact .cons rfl hmap htail

end

/-! ## Inference -/

/-- Whatever solves the equations after the expression was inferred makes the variables that refer to
functions of groups instances of what is recorded for the functions. -/
def Using (V : Vocabulary) (e : Expr) : Prop :=
  ∀ {env : Env} {x : Ty} {run run' : Run} {d : Expr}, (infer env x e).Yields run d run' →
    run.WF V → env.Over V run.store.size → x.Over V run.store.size → e.Over V → e.GivesClosed →
    ∀ {σ : Int → Ty} {sc : Scope}, run'.SolvedBy σ → sc.Matches env →
      Uses (Recorded.Covers V.consts σ) sc e d

section

variable {V : Vocabulary} {run run' : Run} {env : Env} {σ : Int → Ty} {sc : Scope}

theorem inferAll_uses {es ds : List Expr} {x : Ty} (ih : ∀ e ∈ es, Using V e)
    (h : (inferAll env x es).Yields run ds run') (hr : run.WF V) (he : env.Over V run.store.size)
    (hx : x.Over V run.store.size) (hes : ∀ e ∈ es, e.Over V) (hcl : ∀ e ∈ es, e.GivesClosed)
    (hσ : run'.SolvedBy σ) (hsc : sc.Matches env) :
    UsesEach (Recorded.Covers V.consts σ) sc es ds := by
  induction es generalizing run ds with
  | nil =>
    obtain ⟨rfl, _⟩ := inferAll_nil.mp h
    exact .nil
  | cons e es ihs =>
    rw [List.forall_mem_cons] at ih hes hcl
    obtain ⟨d, run₁, ds, hd, hds, rfl⟩ := inferAll_cons.mp h
    have hl := (infer_leads V e hd hr he hx hes.1).1
    have hl' := inferAll_leads (fun f _ => infer_leads V f) hds hl.wf (he.mono hl.size)
      (hx.mono hl.size) hes.2
    exact .cons (ih.1 hd hr he hx hes.1 hcl.1 (hl'.solved σ hσ) hsc)
      (ihs ih.2 hds hl.wf (he.mono hl.size) (hx.mono hl.size) hes.2 hcl.2)

theorem inferEach_uses {es ds : List Expr} {ts : List Ty} (ih : ∀ e ∈ es, Using V e)
    (h : (inferEach env ts es).Yields run ds run') (hlen : ts.length = es.length) (hr : run.WF V)
    (he : env.Over V run.store.size) (ht : ∀ t ∈ ts, t.Over V run.store.size)
    (hes : ∀ e ∈ es, e.Over V) (hcl : ∀ e ∈ es, e.GivesClosed) (hσ : run'.SolvedBy σ)
    (hsc : sc.Matches env) : UsesEach (Recorded.Covers V.consts σ) sc es ds := by
  induction es generalizing run ts ds with
  | nil =>
    obtain ⟨rfl, _⟩ := inferEach_nil.mp h
    exact .nil
  | cons e es ihs =>
    cases ts with
    | nil => cases hlen
    | cons t ts =>
      rw [List.forall_mem_cons] at ih hes ht hcl
      obtain ⟨d, run₁, ds, hd, hds, rfl⟩ := inferEach_cons.mp h
      have hl := (infer_leads V e hd hr he ht.1 hes.1).1
      have ht' : ∀ u ∈ ts, u.Over V _ := fun u hu => (ht.2 u hu).mono hl.size
      have hl' := inferEach_leads (fun f _ => infer_leads V f) hds (Nat.succ.inj hlen) hl.wf
        (he.mono hl.size) ht' hes.2
      exact .cons (ih.1 hd hr he ht.1 hes.1 hcl.1 (hl'.solved σ hσ) hsc)
        (ihs ih.2 hds (Nat.succ.inj hlen) hl.wf (he.mono hl.size) ht' hes.2 hcl.2)

theorem inferItems_uses {es ds : List Expr} {x : Ty} (ih : ∀ e ∈ es, Using V e) (hne : es ≠ [])
    (h : (inferItems env x es).Yields run ds run') (hr : run.WF V) (he : env.Over V run.store.size)
    (hx : x.Over V run.store.size) (hes : ∀ e ∈ es, e.Over V) (hcl : ∀ e ∈ es, e.GivesClosed)
    (hσ : run'.SolvedBy σ) (hsc : sc.Matches env) :
    UsesItems (Recorded.Covers V.consts σ) sc es ds := by
  induction es generalizing env sc run ds with
  | nil => exact absurd rfl hne
  | cons e es ihs =>
    rw [List.forall_mem_cons] at ih hes hcl
    cases es with
    | nil =>
      obtain ⟨d, hd, rfl⟩ := inferItems_last.mp h
      exact .cons (ih.1 hd hr he hx hes.1 hcl.1 hσ hsc) .nil
    | cons f es =>
      obtain ⟨d, run₁, ds, hd, hds, rfl⟩ := inferItems_cons.mp h
      have ha := Run.Leads.alloc hr 1
      obtain ⟨hl, hafter⟩ := infer_leads V e hd ha.wf (he.mono ha.size) (over_fresh run) hes.1
      have hal := ha.trans hl
      have he' := hafter env (he.mono hal.size)
      have hl' := inferItems_leads (fun g _ => infer_leads V g) (by simp) hds hl.wf he'
        (hx.mono hal.size) hes.2
      exact .cons (ih.1 hd ha.wf (he.mono ha.size) (over_fresh run) hes.1 hcl.1 (hl'.solved σ hσ) hsc)
        (ihs ih.2 (by simp) hds hl.wf he' (hx.mono hal.size) hes.2 hcl.2 (hsc.after hd))

theorem inferBindings_uses {bs ts : List Binding} {ps : List Scheme}
    (ih : ∀ b ∈ bs, ∀ f, b.func? = some f → Using V f)
    (h : (inferBindings env ps bs).Yields run ts run') (hlen : ps.length = bs.length)
    (hr : run.WF V) (he : env.Over V run.store.size)
    (hp : ∀ p ∈ ps, p.body.Over V run.store.size)
    (hbs : ∀ b ∈ bs, ∀ f, b.func? = some f → f.Over V)
    (hcl : ∀ b ∈ bs, ∀ f, b.func? = some f → f.GivesClosed) (hsc : sc.Matches env) :
    List.Forall₂ (FunctionUses V.consts sc run') bs ts := by
  induction bs generalizing run ps ts with
  | nil =>
    obtain ⟨rfl, _⟩ := inferBindings_nil.mp h
    exact .nil
  | cons b bs ihs =>
    cases ps with
    | nil => cases hlen
    | cons p ps =>
      rw [List.forall_mem_cons] at ih hbs hcl hp
      obtain ⟨d, run₁, ds, hd, hds, rfl⟩ := inferBindings_cons.mp h
      obtain ⟨name, g, params, result, body, ty, qs, r, c, rfl, hf, rfl⟩ :=
        inferBinding_yields.mp hd
      have hl := (infer_leads V _ hf hr he hp.1 (hbs.1 _ rfl)).1
      have hp' : ∀ q ∈ ps, q.body.Over V _ := fun q hq => (hp.2 q hq).mono hl.size
      have hl' := inferBindings_leads (fun b _ f _ => infer_leads V f) hds (Nat.succ.inj hlen)
        hl.wf (he.mono hl.size) hp' hbs.2
      exact .cons (.intro fun σ hσ =>
          ih.1 _ rfl hf hr he hp.1 (hbs.1 _ rfl) (hcl.1 _ rfl) (hl'.solved σ hσ) hsc)
        (ihs ih.2 hds (Nat.succ.inj hlen) hl.wf (he.mono hl.size) hp' hbs.2 hcl.2)

theorem var_uses (name : String) (typeArgs : Option (List Ty)) (ty : Ty) :
    Using V (.var name typeArgs ty) := by
  intro env x run run' d h hr he hx heo _ σ sc hσ hsc
  obtain ⟨g, run₁, hg, hlen, hu, rfl, rfl⟩ := infer_var.mp h
  refine .var fun f hf _ => ?_
  obtain rfl : f.generic = g := by
    have hlookup := hsc name f hf
    rw [hg] at hlookup
    simpa using hlookup.symm
  refine ⟨(Store.freshList f.generic.params.length run.store).1.map (Ty.subst σ), ?_, ?_⟩
  · rw [List.length_map, length_freshList]
  · rw [(Run.solvedBy_emit.mp hσ).2, Scheme.subst_apply]

theorem func_uses {params : List Param} {result ty : Ty} {body : Expr} (ih : Using V body) :
    Using V (.func params result body ty) := by
  intro env x run run' d h hr he hx heo hcl σ sc hσ hsc
  obtain ⟨ps, inner, run₁, r, run₂, b, run₃, hp, hres, hb, rfl, rfl⟩ := infer_func.mp h
  obtain ⟨hn, hbody⟩ := Expr.every_func.mp heo
  obtain ⟨hl₁, _, hinner⟩ := openParams_leads hp hr he hn.params
  obtain ⟨hl₂, hro⟩ := orFresh_leads hres hl₁.wf hn.result
  obtain ⟨hnames, hscope⟩ := hsc.openParams hp
  exact .func hnames (ih hb hl₂.wf (hinner.mono hl₂.size) hro hbody (Expr.every_func.mp hcl).2
    (Run.solvedBy_emit.mp hσ).1 hscope)

theorem call_uses {callee : Expr} {args : List Expr} {ty : Ty} (ihf : Using V callee)
    (iha : ∀ a ∈ args, Using V a) : Using V (.call callee args ty) := by
  intro env x run run' d h hr he hx heo hcl σ sc hσ hsc
  obtain ⟨f, run₁, es, hc, rfl⟩ := call_run (infer_leads V callee) (fun a _ => infer_leads V a) h hr he hx
    heo
  obtain ⟨_, hcallee, hargs⟩ := Expr.every_call.mp heo
  obtain ⟨_, hclf, hcla⟩ := Expr.every_call.mp hcl
  exact .call
    (ihf hc.called hc.opened.wf (he.mono hc.opened.size) hc.wanted hcallee hclf (hc.final.solved σ hσ) hsc)
    (inferEach_uses iha hc.given (length_freshList _ _) hc.before.wf (he.mono hc.before.size) hc.fresh
      hargs hcla hσ hsc)

theorem let_alone_uses {name : String} {annot ty : Ty} {value : Expr} (ih : Using V value) :
    Using V (.letIn name annot value .absent ty) := by
  intro env x run run' d h hr he hx heo hcl σ sc hσ hsc
  obtain ⟨hn, hvalue, _⟩ := Expr.every_letIn.mp heo
  obtain ⟨a, run₁, v, run₂, ha, hv, rfl, rfl⟩ := infer_let_alone.mp h
  obtain ⟨hl₁, hao⟩ := orFresh_leads ha hr hn.annot
  exact .letIn (ih hv hl₁.wf (he.mono hl₁.size) hao hvalue (Expr.every_letIn.mp hcl).2.1
    (Run.solvedBy_emit.mp hσ).1 hsc) .absent

theorem let_uses {name : String} {annot ty : Ty} {value body : Expr} (hab : body.isAbsent = false)
    (ihv : Using V value) (ihb : Using V body) : Using V (.letIn name annot value body ty) := by
  intro env x run run' d h hr he hx heo hcl σ sc hσ hsc
  obtain ⟨_, hvalue, hbody⟩ := Expr.every_letIn.mp heo
  obtain ⟨_, hclv, hclb⟩ := Expr.every_letIn.mp hcl
  obtain ⟨a, run₁, v, run₂, b, hl, rfl⟩ := let_run hab (infer_leads V value) (infer_leads V body) h hr he hx
    heo
  exact .letIn
    (ihv hl.valued hl.opened.wf (he.mono hl.opened.size) hl.wanted hvalue hclv (hl.final.solved σ hσ) hsc)
    (ihb hl.continued hl.before.wf hl.inside (hx.mono hl.before.size) hbody hclb hσ (hsc.declare name a))

/-- The functions of a group are used under every solution of the equations before they are generalised, so
also under one that reads their parameters as other types. -/
theorem group_uses {bs : List Binding} {body : Expr} {ty : Ty}
    (ihf : ∀ b ∈ bs, ∀ f, b.func? = some f → Using V f) (ihb : Using V body) :
    Using V (.group bs body ty) := by
  intro env x run run' d h hr he hx heo hcl σ sc hσ hsc
  obtain ⟨ps, run₁, ts, run₂, run₃, gs, ds, b, hg, rfl⟩ :=
    group_run (fun _ _ f _ => infer_leads V f) (infer_leads V body) h hr he hx heo
  obtain ⟨_, hfuncs, hbody⟩ := Expr.every_group.mp heo
  obtain ⟨hclg, hclf, hclb⟩ := Expr.every_group.mp hcl
  have hσ₃ : run₃.store.SolvedBy σ := (hg.final.solved σ hσ).store
  have hs := hg.settled.wf.acyclic
  have hplaced := placeholders_placed hg.placed
  have hlen := hg.generalized.length
  have hinside : (sc.bindGroup bs (recordedAll bs ps)).Matches (env.extendGroup bs ps) :=
    hsc.extendGroup bs (map_generic_recordedAll hg.length)
  have houtside : (sc.bindGroup bs (recordedAll bs gs)).Matches (env.extendGroup bs gs) :=
    hsc.extendGroup bs (map_generic_recordedAll hlen)
  refine .group (hg.generalized.uses hs hg.settled.wf.store hσ₃ (fun τ υ hread => ?_)
    (fun τ υ hread => ?_) (inferBindings_uses ihf hg.inferred hg.length hg.opened.wf hg.inside
      hg.bodies hfuncs hclf hinside) hclf)
    (ihb hg.continued hg.settled.wf hg.outside (hx.mono hg.before.size) hbody hclb hσ houtside)
  · exact (hg.solved _).mp ⟨hread.solvedBy hs, by simp [hg.empty]⟩
  · refine Scope.Rel.bindGroup (fun y => ?_) (hg.generalized.carries hs hread hplaced
      fun b hb g hbg => hclg g (mem_generics hb hbg)) bs
    cases hy : sc y with
    | none => exact .none
    | some f => exact .some (hread.carries_bound hσ₃ (hsc y f hy))

theorem array_uses {item ty : Ty} {items : List Expr} (ih : ∀ e ∈ items, Using V e) :
    Using V (.array item items ty) := by
  intro env x run run' d h hr he hx heo hcl σ sc hσ hsc
  obtain ⟨a, run₁, es, run₂, ha, hes, rfl, rfl⟩ := infer_array.mp h
  obtain ⟨hn, hitems⟩ := Expr.every_array.mp heo
  obtain ⟨hl₁, hao⟩ := orFresh_leads ha hr hn.item
  exact .array (inferAll_uses ih hes hl₁.wf (he.mono hl₁.size) hao hitems
    (Expr.every_array.mp hcl).2 (Run.solvedBy_emit.mp hσ).1 hsc)

theorem seq_uses {effect value : Expr} {ty : Ty} (ihe : Using V effect) (ihv : Using V value) :
    Using V (.seq effect value ty) := by
  intro env x run run' d h hr he hx heo hcl σ sc hσ hsc
  obtain ⟨f, run₁, v, hs, rfl⟩ := seq_run (infer_leads V effect) (infer_leads V value) h hr he hx heo
  obtain ⟨_, heffect, hvalue⟩ := Expr.every_seq.mp heo
  obtain ⟨_, hcle, hclv⟩ := Expr.every_seq.mp hcl
  exact .seq
    (ihe hs.effected hs.opened.wf (he.mono hs.opened.size) (over_fresh run) heffect hcle
      (hs.final.solved σ hσ) hsc)
    (ihv hs.continued hs.before.wf (he.mono hs.before.size) (hx.mono hs.before.size) hvalue hclv hσ hsc)

/-- Inference uses the functions of groups as is recorded for them. -/
theorem infer_uses (V : Vocabulary) (e : Expr) : Using V e := by
  induction e with
  | absent => exact fun h => absurd h not_infer_absent
  | other kind => exact fun h => absurd h not_infer_other
  | int value ty =>
    intro env x run run' d h _ _ _ _ _ σ sc _ _
    obtain ⟨rfl, rfl⟩ := infer_int.mp h
    exact .int
  | str value ty =>
    intro env x run run' d h _ _ _ _ _ σ sc _ _
    obtain ⟨rfl, rfl⟩ := infer_str.mp h
    exact .str
  | var name typeArgs ty => exact var_uses name typeArgs ty
  | func params result body ty ih => exact func_uses ih
  | call callee args ty ihf iha => exact call_uses ihf iha
  | letIn name annot value body ty ihv ihb =>
    cases hab : body.isAbsent with
    | true =>
      obtain rfl := Expr.isAbsent_iff.mp hab
      exact let_alone_uses ihv
    | false => exact let_uses hab ihv ihb
  | group bs body ty ihf ihb => exact group_uses ihf ihb
  | array item items ty ih => exact array_uses ih
  | seq effect value ty ihe ihv => exact seq_uses ihe ihv
  | block items ty ih =>
    intro env x run run' d h hr he hx heo hcl σ sc hσ hsc
    obtain ⟨hne, es, hes, rfl⟩ := infer_block.mp h
    exact .block (inferItems_uses ih hne hes hr he hx (Expr.every_block.mp heo).2
      (Expr.every_block.mp hcl).2 hσ hsc)

/-! ## Programs -/

/-- The constructors without arguments that a program, its environment and its literals mention. -/
def mentioned (env : Env) (e : Expr) : Vocabulary where
  gaps := True
  strays := True
  consts c := ¬ Unused [c] env e
  int h := h.literals.1 List.mem_cons_self
  string h := h.literals.2 List.mem_cons_self

theorem Unused.of_mem {names : List String} {e : Expr} (h : Unused names env e) {p : String}
    (hp : p ∈ names) : Unused [p] env e := by
  have hsub : ∀ q ∈ [p], q ∈ names := fun q hq => List.mem_singleton.mp hq ▸ hp
  refine ⟨⟨fun hi => h.literals.1 (hsub _ hi), fun hs => h.literals.2 (hsub _ hs)⟩, ?_, ?_⟩
  · exact h.env.imp fun g hg ⟨q, hq, hm⟩ => hg ⟨q, hsub q hq, hm⟩
  · exact h.expr.imp fun n hn c hc hm => hn c hc (hsub c hm)

theorem over_mentioned {e : Expr} {n : Nat} {t : Ty}
    (h : ∀ c ∈ t.consts, ¬ Unused [c] env e) : t.Over (mentioned env e) n :=
  ⟨fun hg => absurd trivial hg, fun hs => absurd trivial hs, h⟩

theorem env_over_mentioned (env : Env) (e : Expr) : env.Over (mentioned env e) 0 := by
  intro x g hx
  refine ⟨fun hg => absurd trivial hg, fun hs => absurd trivial hs, fun c hc => ?_⟩
  by_cases hp : c ∈ g.params
  · exact .inr hp
  · exact .inl fun hu => hu.env x g hx ⟨c, List.mem_cons_self, hc, hp⟩

theorem expr_over_mentioned (env : Env) (e : Expr) : e.Over (mentioned env e) := by
  intro n hn
  have hmem : ∀ t ∈ n.annotations ++ n.typeArguments ++ n.generics.map (·.body),
      t.Over (mentioned env e) 0 := fun t ht => over_mentioned fun c hc hu =>
    hu.expr n hn c (List.mem_flatMap.mpr ⟨t, ht, hc⟩) List.mem_cons_self
  refine ⟨fun t ht _ => hmem t ?_, fun t ht => hmem t ?_, fun g hg => hmem g.body ?_⟩
  · exact List.mem_append_left _ (List.mem_append_left _ ht)
  · exact List.mem_append_left _ (List.mem_append_right _ ht)
  · exact List.mem_append_right _ (List.mem_map_of_mem hg)

/-- In an annotated program every variable that refers to a function of a group has an instance of the
generic type that is recorded for the function, if that type was given, or if its parameters do not have
names that the program, the environment or literals use. -/
theorem annotate_uses {env : Env} {e d : Expr} (hgiven : e.GivesClosed)
    (h : (Context.new.annotate e (some env)).1.result = .ok d) :
    Uses (fun f t => (∀ g, f = .inferred g → Unused g.params env e) → f.generic.IsInstance t)
      .empty e d := by
  obtain ⟨_, t, run, hroot⟩ := annotate_result.mp h
  obtain ⟨typed, run₁, hrun, ⟨⟩⟩ := root_run hroot (env_over_mentioned env e) (expr_over_mentioned env e)
  have hs := hrun.settled.wf.acyclic
  have huse := infer_uses (mentioned env e) e hrun.inferred hrun.opened hrun.scope hrun.expected
    (expr_over_mentioned env e) hgiven hrun.solvedBy (.empty env)
  have hread : Uses (Recorded.Covers (mentioned env e).consts .var) .empty e
      (typed.mapTypes (Ty.subst fun i => run.store.resolve (.var i))) := by
    refine Uses.reread ?_ (.empty _) hgiven fun i c hc =>
      .inl (hrun.settled.wf.store.mem_consts_resolve hs hc)
    simpa only [Ty.subst_id] using huse
  have hresolve : Ty.subst (fun i => run.store.resolve (.var i)) = run.store.resolve :=
    funext fun u => (Store.resolve_eq_subst run.store u).symm
  rw [hresolve] at hread
  refine hread.mono (fun f t hcov hclear => ?_) (.empty _) hgiven
  have hfree : f.Clear (mentioned env e).consts := by
    cases f with
    | given g => trivial
    | inferred g => exact fun p hp hn => hn ((hclear g rfl).of_mem hp)
  obtain ⟨args, hlen, heq⟩ := hcov hfree
  refine ⟨args, hlen, ?_⟩
  rw [Ty.subst_id] at heq
  rw [← heq, Scheme.applyUnder_eq_apply fun _ _ => rfl]

end

/-! ## Nested functions -/

/-- A function that gives back its argument through a function of one inside. -/
def throughInner : Expr :=
  .group [.fn "f" none [⟨"x", .absent⟩] .absent
      (.group [.fn "g" none [⟨"y", .absent⟩] .absent (.var "x" none .absent) .absent]
        (.call (.var "g" none .absent) [.int 1 .absent] .absent) .absent) .absent]
    (.call (.var "f" none .absent) [.str "s" .absent] .absent) .absent

/-- The tree of `throughInner`: the parameter of the inner function is `A`, that of the outer one is
`B`. -/
def throughInnerTyped : Expr :=
  .group [.fn "f" (some ⟨["B"], .function [.con "B" []] (.con "B" [])⟩) [⟨"x", .con "B" []⟩] (.con "B" [])
      (.group [.fn "g" (some ⟨["A"], .function [.con "A" []] (.con "B" [])⟩) [⟨"y", .con "A" []⟩]
          (.con "B" []) (.var "x" none (.con "B" [])) (.function [.con "A" []] (.con "B" []))]
        (.call (.var "g" none (.function [.int] (.con "B" []))) [.int 1 .int] (.con "B" [])) (.con "B" []))
      (.function [.con "B" []] (.con "B" []))]
    (.call (.var "f" none (.function [.string] .string)) [.str "s" .string] .string) .string

theorem annotate_uses_throughInner :
    (Context.new.annotate throughInner (some .empty)).1.result = .ok throughInnerTyped ∧
      Uses (fun f t => (∀ g, f = .inferred g → Unused g.params .empty throughInner) →
        f.generic.IsInstance t) .empty throughInner throughInnerTyped := by
  have hgives : throughInner.GivesClosed := by
    simp [throughInner, Expr.GivesClosed, Expr.generics, Binding.func?, Binding.scheme]
  exact ⟨by cbv, annotate_uses hgives (by cbv)⟩

-- the given parameter of the outer function gets under the inferred parameter of the inner one
example : (Context.new.annotate (nestedGroups "A") (some .empty)).1.result =
    .ok (.group [.fn "f" (some ⟨["A"], .function [.con "A" []] (.con "A" [])⟩) [⟨"x", .con "A" []⟩]
        (.con "A" [])
        (.group [.fn "g" (some ⟨["A"], .function [.con "A" []] (.con "A" [])⟩) [⟨"y", .con "A" []⟩]
            (.con "A" []) (.var "x" none (.con "A" [])) (.function [.con "A" []] (.con "A" []))]
          (.call (.var "g" none (.function [.int] (.con "A" []))) [.int 1 .int] (.con "A" []))
          (.con "A" [])) (.function [.con "A" []] (.con "A" []))]
      (.array (.function [.var 9] (.var 9)) [.var "f" none (.function [.var 9] (.var 9))]
        (.array (.function [.var 9] (.var 9)))) (.array (.function [.var 9] (.var 9)))) := by cbv

end Polytype
