import Mathlib
import Polytype.Proofs.Expr.References
import Polytype.Proofs.Infer.Embedding
import Polytype.Proofs.Infer.Irrelevance

/-!
# Expressions that simulate one another

`Simulates e e'` says that the expression `e` is inferred like `e'`, step by step, in a run that embeds
into the run of `e'`: with variables that correspond to some of those of `e'`, and with the same errors.
It is a congruence for every form of expressions, and every expression without variables in its types
simulates itself (`Simulates.refl`).

The trees that result are not compared as a whole. What later steps see of them are the parameters of the
groups inside, which generalisation avoids, and what a `let` without body binds in the rest of a block
(`Expr.Embeds`).
-/

namespace Polytype

open InferM

/-! ## Parameters of groups -/

namespace Expr

/-- The parameters of groups inside a function of a group. -/
def innerParams : Binding → List String
  | .fn _ _ _ _ body _ => body.groupParams
  | .missing .. => []

/-- The parameters that a group gives one of its functions. -/
def ownParams (b : Binding) : List String := (b.scheme.map (·.params)).getD []

/-- The parameters that are given at one place of a walk. -/
def paramsAt : Except Fault Expr → List String
  | .ok (group bs _ _) => bs.flatMap ownParams
  | _ => []

theorem groupParams_eq (e : Expr) : e.groupParams = e.visits.flatMap paramsAt := by
  refine List.flatMap_congr fun r _ => ?_
  cases r with
  | error k => rfl
  | ok n => cases n <;> rfl

theorem flatMap_visitsList (es : List Expr) :
    (visitsList es).flatMap paramsAt = es.flatMap groupParams := by
  induction es with
  | nil => rw [visitsList, List.flatMap_nil, List.flatMap_nil]
  | cons e es ih => rw [visitsList, List.flatMap_append, List.flatMap_cons, ih, groupParams_eq]

theorem flatMap_visitsBindings (bs : List Binding) :
    (visitsBindings bs).flatMap paramsAt = bs.flatMap innerParams := by
  induction bs with
  | nil => rw [visitsBindings, List.flatMap_nil, List.flatMap_nil]
  | cons b bs ih =>
    rw [visitsBindings, List.flatMap_append, List.flatMap_cons, ih]
    cases b with
    | missing name g => simp [visitsBinding, innerParams, paramsAt]
    | fn name g params result body ty => simp [visitsBinding, innerParams, paramsAt, groupParams_eq]

section

attribute [local simp] groupParams_eq visits paramsAt flatMap_visitsList flatMap_visitsBindings

@[simp] theorem groupParams_absent : absent.groupParams = [] := by simp

@[simp] theorem groupParams_int (value : Int64) (ty : Ty) : (int value ty).groupParams = [] := by simp

@[simp] theorem groupParams_str (value : String) (ty : Ty) : (str value ty).groupParams = [] := by simp

@[simp] theorem groupParams_var (name : String) (typeArgs : Option (List Ty)) (ty : Ty) :
    (var name typeArgs ty).groupParams = [] := by simp

@[simp] theorem groupParams_other (kind : String) : (other kind).groupParams = [] := by simp

@[simp] theorem groupParams_func (params : List Param) (result : Ty) (body : Expr) (ty : Ty) :
    (func params result body ty).groupParams = body.groupParams := by simp

@[simp] theorem groupParams_call (callee : Expr) (args : List Expr) (ty : Ty) :
    (call callee args ty).groupParams = callee.groupParams ++ args.flatMap groupParams := by simp

@[simp] theorem groupParams_letIn (name : String) (annot : Ty) (value body : Expr) (ty : Ty) :
    (letIn name annot value body ty).groupParams = value.groupParams ++ body.groupParams := by simp

@[simp] theorem groupParams_group (bs : List Binding) (body : Expr) (ty : Ty) :
    (group bs body ty).groupParams =
      bs.flatMap ownParams ++ (bs.flatMap innerParams ++ body.groupParams) := by simp

@[simp] theorem groupParams_array (item : Ty) (items : List Expr) (ty : Ty) :
    (array item items ty).groupParams = items.flatMap groupParams := by simp

@[simp] theorem groupParams_seq (effect value : Expr) (ty : Ty) :
    (seq effect value ty).groupParams = effect.groupParams ++ value.groupParams := by simp

@[simp] theorem groupParams_block (items : List Expr) (ty : Ty) :
    (block items ty).groupParams = items.flatMap groupParams := by simp

end

/-- A change of types keeps the parameters. -/
theorem groupParams_mapTypes (h : Ty → Ty) (e : Expr) : (e.mapTypes h).groupParams = e.groupParams := by
  induction e with
  | absent => simp [mapTypes]
  | int value ty => simp [mapTypes]
  | str value ty => simp [mapTypes]
  | var name typeArgs ty => simp [mapTypes]
  | other kind => simp [mapTypes]
  | func params result body ty ih => simp [mapTypes, ih]
  | call callee args ty ihf iha =>
    simp [mapTypes, mapTypesList_eq, ihf, List.flatMap_map, List.flatMap_congr iha]
  | letIn name annot value body ty ihv ihb => simp [mapTypes, ihv, ihb]
  | group bs body ty ihf ihb =>
    have hown : ∀ b ∈ bs, ownParams (mapTypesBinding h b) = ownParams b := by
      intro b _
      cases b with
      | missing name g => cases g <;> rfl
      | fn name g params result body ty => cases g <;> rfl
    have hinner : ∀ b ∈ bs, innerParams (mapTypesBinding h b) = innerParams b := by
      intro b hb
      cases b with
      | missing name g => rfl
      | fn name g params result body ty =>
        have hbody := ihf _ hb _ rfl
        rwa [mapTypes, groupParams_func, groupParams_func] at hbody
    simp [mapTypes, mapTypesBindings_eq, ihb, List.flatMap_map, List.flatMap_congr hown,
      List.flatMap_congr hinner]
  | array item items ty ih =>
    simp [mapTypes, mapTypesList_eq, List.flatMap_map, List.flatMap_congr ih]
  | seq effect value ty ihe ihv => simp [mapTypes, ihe, ihv]
  | block items ty ih => simp [mapTypes, mapTypesList_eq, List.flatMap_map, List.flatMap_congr ih]

end Expr

/-! ## Trees -/

/-- Two inferred trees have the same parameters of groups, and an environment is extended by
corresponding types after them. -/
structure Expr.Embeds (f : Int → Int) (n : Nat) (d d' : Expr) : Prop where
  params : d'.groupParams = d.groupParams
  after : ∀ {Γ Γ' : Env}, Γ.Embeds f n Γ' → (Γ.after d).Embeds f n (Γ'.after d')

/-- Trees that bind nothing after them. -/
theorem Expr.Embeds.of_params {f : Int → Int} {n : Nat} {d d' : Expr}
    (h : d'.groupParams = d.groupParams) (hd : d.boundAfter? = none) (hd' : d'.boundAfter? = none) :
    d.Embeds f n d' := by
  refine ⟨h, fun hΓ => ?_⟩
  rwa [Env.after_eq_self hd, Env.after_eq_self hd']

/-- The first expression is inferred like the second one, in runs that embed into those of the second
one. -/
structure Simulates (e e' : Expr) : Prop where
  absent : e'.isAbsent = e.isAbsent
  runs : ∀ {f : Int → Int} {K : List Int} {env env' : Env} {x x' : Ty} {run run' : Run},
    run.Embeds f K run' → env.Embeds f run.store.size env' → x.Embeds f run.store.size x' →
    Corresponds f run.store.size K Expr.Embeds (infer env x e run) (infer env' x' e' run')

section

variable {f : Int → Int} {K : List Int} {env env' : Env} {x x' : Ty} {run run' : Run}

/-! ## Parts of inference -/

/-- A node that needs an equation with the type expected of it. -/
theorem corresponds_emit_pure (h : run.Embeds f K run') (hx : x.Embeds f run.store.size x')
    {t t' : Ty} (ht : t.Embeds f run.store.size t') {d d' : Expr}
    (hd : d.Embeds f run.store.size d') :
    Corresponds f run.store.size K Expr.Embeds
      ((do InferM.emit x t d; return d : InferM Expr) run)
      ((do InferM.emit x' t' d'; return d' : InferM Expr) run') :=
  .ok (.refl f le_rfl) (h.emit hx ht d d') hd

theorem openParams_corresponds (h : run.Embeds f K run') (he : env.Embeds f run.store.size env')
    {ps : List Param} (hp : ∀ p ∈ ps, p.ty ≠ .absent → p.ty.Over .all 0) :
    Corresponds f run.store.size K (fun f n r r' =>
      List.Forall₂ (Ty.Embeds f n) (r.1.map (·.ty)) (r'.1.map (·.ty)) ∧ r.2.Embeds f n r'.2)
      (openParams env ps run) (openParams env' ps run') := by
  induction ps generalizing f env env' run run' with
  | nil =>
    rw [openParams, openParams]
    exact corresponds_pure h ⟨.nil, he⟩
  | cons p ps ih =>
    rw [List.forall_mem_cons] at hp
    rw [openParams, openParams]
    refine corresponds_bind (corresponds_orFresh h hp.1) ?_
    intro f₁ t t' run₁ run₁' _ _ hup hr ht
    refine corresponds_bind (ih hr ((he.mono hup).declare p.name ht) hp.2) ?_
    rintro f₂ ⟨qs, inner⟩ ⟨qs', inner'⟩ run₂ run₂' _ _ hup hr ⟨hqs, hinner⟩
    exact corresponds_pure hr ⟨.cons (ht.mono hup) hqs, hinner⟩

theorem unifyTypeArgs_corresponds (h : run.Embeds f K run') {as vs vs' : List Ty}
    (ha : ∀ a ∈ as, a.Over .all 0) (hv : List.Forall₂ (Ty.Embeds f run.store.size) vs vs')
    (e e' : Expr) :
    Corresponds f run.store.size K (fun _ _ _ _ => True) (unifyTypeArgs e as vs run)
      (unifyTypeArgs e' as vs' run') := by
  induction as generalizing f vs vs' run run' with
  | nil =>
    rw [unifyTypeArgs, unifyTypeArgs]
    exact corresponds_pure h trivial
  | cons a as ih =>
    rw [List.forall_mem_cons] at ha
    cases hv with
    | nil =>
      rw [unifyTypeArgs, unifyTypeArgs]
      exact .fault
    | cons hv hvs =>
      rw [unifyTypeArgs, unifyTypeArgs]
      refine corresponds_bind (corresponds_unify h (.closed ha.1) hv e e') ?_
      intro f₁ _ _ run₁ run₁' _ _ hup hr _
      exact ih hr ha.2 (hvs.imp fun _ _ ht => ht.mono hup)

theorem inferAll_corresponds (h : run.Embeds f K run') (he : env.Embeds f run.store.size env')
    (hx : x.Embeds f run.store.size x') {es es' : List Expr} (hes : List.Forall₂ Simulates es es') :
    Corresponds f run.store.size K
      (fun _ _ ds ds' => ds'.flatMap Expr.groupParams = ds.flatMap Expr.groupParams)
      (inferAll env x es run) (inferAll env' x' es' run') := by
  induction hes generalizing f run run' with
  | nil =>
    rw [inferAll, inferAll]
    exact corresponds_pure h rfl
  | cons hs _ ih =>
    rw [inferAll, inferAll]
    refine corresponds_bind (hs.runs h he hx) ?_
    intro f₁ d d' run₁ run₁' _ _ hup hr hd
    refine corresponds_bind (ih hr (he.mono hup) (hx.mono hup)) ?_
    intro f₂ ds ds' run₂ run₂' _ _ _ hr hds
    exact corresponds_pure hr (by rw [List.flatMap_cons, List.flatMap_cons, hd.params, hds])

theorem inferEach_corresponds (h : run.Embeds f K run') (he : env.Embeds f run.store.size env')
    {ts ts' : List Ty} (hts : List.Forall₂ (Ty.Embeds f run.store.size) ts ts') {es es' : List Expr}
    (hes : List.Forall₂ Simulates es es') :
    Corresponds f run.store.size K
      (fun _ _ ds ds' => ds'.flatMap Expr.groupParams = ds.flatMap Expr.groupParams)
      (inferEach env ts es run) (inferEach env' ts' es' run') := by
  induction hes generalizing f run run' ts ts' with
  | nil =>
    rw [inferEach, inferEach]
    exact corresponds_pure h rfl
  | cons hs _ ih =>
    cases hts with
    | nil =>
      rw [inferEach, inferEach]
      exact .fault
    | cons ht hts =>
      rw [inferEach, inferEach]
      refine corresponds_bind (hs.runs h he ht) ?_
      intro f₁ d d' run₁ run₁' _ _ hup hr hd
      refine corresponds_bind (ih hr (he.mono hup) (hts.imp fun _ _ ht => ht.mono hup)) ?_
      intro f₂ ds ds' run₂ run₂' _ _ _ hr hds
      exact corresponds_pure hr (by rw [List.flatMap_cons, List.flatMap_cons, hd.params, hds])

theorem inferItems_corresponds (h : run.Embeds f K run') (he : env.Embeds f run.store.size env')
    (hx : x.Embeds f run.store.size x') {es es' : List Expr} (hes : List.Forall₂ Simulates es es') :
    Corresponds f run.store.size K
      (fun _ _ ds ds' => ds'.flatMap Expr.groupParams = ds.flatMap Expr.groupParams)
      (inferItems env x es run) (inferItems env' x' es' run') := by
  induction hes generalizing f env env' run run' with
  | nil =>
    rw [inferItems, inferItems]
    exact corresponds_pure h rfl
  | cons hs hes ih =>
    cases hes with
    | nil =>
      rw [inferItems, inferItems]
      refine corresponds_bind (hs.runs h he hx) ?_
      intro f₁ d d' run₁ run₁' _ _ _ hr hd
      exact corresponds_pure hr (by simp [hd.params])
    | cons =>
      rw [inferItems, inferItems]
      · refine corresponds_bind (corresponds_fresh h) ?_
        intro f₁ u u' run₁ run₁' _ _ hup₁ hr hu
        refine corresponds_bind (hs.runs hr (he.mono hup₁) hu) ?_
        intro f₂ d d' run₂ run₂' _ _ hup₂ hr hd
        have hup := hup₁.trans hup₂
        refine corresponds_bind (ih hr (hd.after (he.mono hup)) (hx.mono hup)) ?_
        intro f₃ ds ds' run₃ run₃' _ _ _ hr hds
        exact corresponds_pure hr (by rw [List.flatMap_cons, List.flatMap_cons, hd.params, hds])
      · simp
      · simp

/-! ## Groups -/

/-- The first function of a group is inferred like the second one. -/
inductive Binding.Simulates : Binding → Binding → Prop
  | fn {name : String} {g : Option Scheme} {params : List Param} {result ty ty' : Ty}
      {body body' : Expr} :
      Polytype.Simulates (.func params result body ty) (.func params result body' ty') →
      Simulates (.fn name g params result body ty) (.fn name g params result body' ty')
  | missing {name : String} {g : Option Scheme} : Simulates (.missing name g) (.missing name g)

theorem Binding.Simulates.same {b b' : Binding} (h : b.Simulates b') :
    b'.name = b.name ∧ b'.scheme = b.scheme := by
  cases h with
  | fn => exact ⟨rfl, rfl⟩
  | missing => exact ⟨rfl, rfl⟩

theorem Binding.Simulates.names {bs bs' : List Binding} (h : List.Forall₂ Binding.Simulates bs bs') :
    bs'.map (·.name) = bs.map (·.name) := by
  induction h with
  | nil => rfl
  | cons hb _ ih => rw [List.map_cons, List.map_cons, hb.same.1, ih]

theorem Binding.Simulates.refl {b : Binding}
    (hf : ∀ e, b.func? = some e → Polytype.Simulates e e) : b.Simulates b := by
  cases b with
  | missing name g => exact .missing
  | fn name g params result body ty => exact .fn (hf _ rfl)

/-- Two inferred functions of a group have the same parameters of groups inside. -/
inductive Binding.Embeds : Binding → Binding → Prop
  | fn {name name' : String} {g g' : Option Scheme} {params params' : List Param}
      {result result' ty ty' : Ty} {body body' : Expr} : body'.groupParams = body.groupParams →
      body.Formed → body'.Formed →
      Embeds (.fn name g params result body ty) (.fn name' g' params' result' body' ty')

theorem placeholders_corresponds (h : run.Embeds f K run') {bs bs' : List Binding}
    (hbs : List.Forall₂ Binding.Simulates bs bs')
    (hg : ∀ b ∈ bs', ∀ g, b.scheme = some g → g.body.Over .all 0) :
    Corresponds f run.store.size K (fun f n => List.Forall₂ (Scheme.Embeds f n))
      (placeholders bs run) (placeholders bs' run') := by
  induction hbs generalizing f run run' with
  | nil =>
    rw [placeholders]
    exact corresponds_pure h .nil
  | @cons b b' bs bs' hb _ ih =>
    rw [List.forall_mem_cons] at hg
    simp only [placeholders, ← hb.same.2]
    cases hs : b'.scheme with
    | some g =>
      simp only [pure_bind]
      refine corresponds_bind (ih h hg.2) ?_
      intro f₁ gs gs' run₁ run₁' _ _ _ hr hgs
      exact corresponds_pure hr (.cons (.closed (hg.1 g hs)) hgs)
    | none =>
      simp only [map_eq_pure_bind, bind_assoc, pure_bind]
      refine corresponds_bind (corresponds_fresh h) ?_
      intro f₁ t t' run₁ run₁' _ _ _ hr ht
      refine corresponds_bind (ih hr hg.2) ?_
      intro f₂ gs gs' run₂ run₂' _ _ hup hr hgs
      exact corresponds_pure hr (.cons (.ofTy (ht.mono hup)) hgs)

theorem inferBinding_corresponds (h : run.Embeds f K run') (he : env.Embeds f run.store.size env')
    (hx : x.Embeds f run.store.size x') {b b' : Binding} (hb : b.Simulates b') :
    Corresponds f run.store.size K (fun _ _ => Binding.Embeds) (inferBinding env x b run)
      (inferBinding env' x' b' run') := by
  cases hb with
  | missing =>
    rw [inferBinding, inferBinding]
    exact corresponds_fail _ rfl _ _
  | fn hs =>
    rw [inferBinding_eq, inferBinding_eq, map_eq_pure_bind, map_eq_pure_bind]
    refine corresponds_bind (hs.runs h he hx) ?_
    intro f₁ d d' run₁ run₁' hd hd' _ hr hembeds
    obtain ⟨_, _, _, _, _, body, _, _, _, hb, rfl, _⟩ := infer_func.mp hd
    obtain ⟨_, _, _, _, _, body', _, _, _, hb', rfl, _⟩ := infer_func.mp hd'
    exact corresponds_pure hr (.fn (by simpa using hembeds.params) (infer_formed _ hb) (infer_formed _ hb'))

theorem inferBindings_corresponds (h : run.Embeds f K run') (he : env.Embeds f run.store.size env')
    {gs gs' : List Scheme} (hgs : List.Forall₂ (Scheme.Embeds f run.store.size) gs gs')
    {bs bs' : List Binding} (hbs : List.Forall₂ Binding.Simulates bs bs') :
    Corresponds f run.store.size K (fun _ _ => List.Forall₂ Binding.Embeds)
      (inferBindings env gs bs run) (inferBindings env' gs' bs' run') := by
  induction hbs generalizing f run run' gs gs' with
  | nil =>
    rw [inferBindings, inferBindings]
    exact corresponds_pure h .nil
  | cons hb _ ih =>
    cases hgs with
    | nil =>
      rw [inferBindings, inferBindings]
      exact .fault
    | cons hg hgs =>
      rw [inferBindings, inferBindings]
      refine corresponds_bind (inferBinding_corresponds h he hg.1 hb) ?_
      intro f₁ d d' run₁ run₁' _ _ hup hr hd
      refine corresponds_bind (ih hr (he.mono hup) (hgs.imp fun _ _ hg => hg.mono hup)) ?_
      intro f₂ ds ds' run₂ run₂' _ _ _ hr hds
      exact corresponds_pure hr (.cons hd hds)

/-- A function of a group gets corresponding generic types. -/
theorem generalize_corresponds (h : run.Embeds f K run') (he : env.Embeds f run.store.size env')
    {own : Option Scheme} (hown : ∀ g, own = some g → g.body.Over .all 0) {p p' : Scheme}
    (hp : p.Embeds f run.store.size p') {t t' : Binding} (ht : t.Embeds t') :
    Corresponds f run.store.size K (fun f n r r' => r.1.Embeds f n r'.1 ∧
        Expr.ownParams r'.2 = Expr.ownParams r.2 ∧ Expr.innerParams r'.2 = Expr.innerParams r.2)
      (generalize env own p t run) (generalize env' own p' t' run') := by
  cases ht with
  | @fn name name' old old' params params' result result' ty ty' body body' hbody hf hf' =>
    cases own with
    | some g =>
      rw [generalize, generalize]
      exact corresponds_pure h ⟨.closed (hown g rfl), rfl, hbody⟩
    | none =>
      rw [generalize, generalize]
      have hscope : (Expr.func params' result' body' ty').groupParams =
          (Expr.func params result body ty).groupParams := by simpa using hbody
      refine corresponds_bind (corresponds_close h he hp.1 hscope (Expr.Formed.func hf).walk
        (Expr.Formed.func hf').walk) ?_
      rintro f₁ ⟨g, store?⟩ ⟨g', store?'⟩ run₁ run₁' _ _ _ hr hg
      have hdone : ∀ {b b' : Expr}, b'.groupParams = b.groupParams →
          ∀ {ps ps' : List Param} {r r' t t' : Ty},
            Expr.ownParams (.fn name' (some g') ps' r' b' t') =
                Expr.ownParams (.fn name (some g) ps r b t) ∧
              Expr.innerParams (.fn name' (some g') ps' r' b' t') =
                Expr.innerParams (.fn name (some g) ps r b t) := fun hb => ⟨hg.2, hb⟩
      cases store? with
      | none =>
        cases store?' with
        | none => exact corresponds_pure hr ⟨hg, hdone hbody⟩
        | some s' =>
          dsimp only
          rw [retypeBinding_fn hf']
          exact corresponds_pure hr ⟨hg, hdone ((Expr.groupParams_mapTypes _ _).trans hbody)⟩
      | some s =>
        have hb := hbody.trans (Expr.groupParams_mapTypes s.resolve body).symm
        cases store?' with
        | none =>
          dsimp only
          rw [retypeBinding_fn hf]
          exact corresponds_pure hr ⟨hg, hdone hb⟩
        | some s' =>
          dsimp only
          rw [retypeBinding_fn hf, retypeBinding_fn hf']
          exact corresponds_pure hr ⟨hg, hdone ((Expr.groupParams_mapTypes _ _).trans hb)⟩

theorem generalizeAll_corresponds (h : run.Embeds f K run') {outside outside' : Env}
    (ho : outside.Embeds f run.store.size outside') (he : env.Embeds f run.store.size env')
    {bs bs' : List Binding} (hbs : List.Forall₂ Binding.Simulates bs bs')
    (hown : ∀ b ∈ bs', ∀ g, b.scheme = some g → g.body.Over .all 0) {ps ps' : List Scheme}
    (hps : List.Forall₂ (Scheme.Embeds f run.store.size) ps ps') {ts ts' : List Binding}
    (hts : List.Forall₂ Binding.Embeds ts ts') (group group' : Nat) :
    Corresponds f run.store.size K (fun f n r r' => r.2.Embeds f n r'.2 ∧
        r'.1.flatMap Expr.ownParams = r.1.flatMap Expr.ownParams ∧
        r'.1.flatMap Expr.innerParams = r.1.flatMap Expr.innerParams)
      (generalizeAll group outside env bs ps ts run)
      (generalizeAll group' outside' env' bs' ps' ts' run') := by
  induction hbs generalizing f env env' run run' ps ps' ts ts' with
  | nil =>
    rw [generalizeAll, generalizeAll]
    exact corresponds_pure h ⟨he, rfl, rfl⟩
  | @cons b b' bs bs' hb _ ih =>
    rw [List.forall_mem_cons] at hown
    cases hps with
    | nil => exact .fault
    | cons hp hps =>
      cases hts with
      | nil => exact .fault
      | cons ht hts =>
        rw [generalizeAll, generalizeAll, ← hb.same.1, ← hb.same.2]
        refine corresponds_bind (generalize_corresponds h ho hown.1 hp ht) ?_
        rintro f₁ ⟨g, d⟩ ⟨g', d'⟩ run₁ run₁' _ _ hup₁ hr ⟨hg, hdown, hdinner⟩
        refine corresponds_bind (corresponds_modify hr rfl rfl rfl rfl) ?_
        intro f₂ _ _ run₂ run₂' _ _ hup₂ hr _
        have hup := hup₁.trans hup₂
        have he₂ := (he.mono hup).extend b'.name (hg.mono hup₂)
        refine corresponds_bind (ih hr (ho.mono hup) he₂ hown.2
          (hps.imp fun _ _ hp => hp.mono hup) hts) ?_
        rintro f₃ ⟨ds, outer⟩ ⟨ds', outer'⟩ run₃ run₃' _ _ _ hr ⟨houter, hown', hinner'⟩
        refine corresponds_pure hr ⟨houter, ?_, ?_⟩
        · simp only [List.flatMap_cons, hdown, hown']
        · simp only [List.flatMap_cons, hdinner, hinner']

/-! ## Expressions -/

namespace Simulates

theorem int (value : Int64) (ty ty' : Ty) : Simulates (.int value ty) (.int value ty') := by
  refine ⟨rfl, fun h he hx => ?_⟩
  rw [infer, infer]
  exact corresponds_emit_pure h hx (.closed (.const trivial)) (.of_params rfl rfl rfl)

theorem str (value : String) (ty ty' : Ty) : Simulates (.str value ty) (.str value ty') := by
  refine ⟨rfl, fun h he hx => ?_⟩
  rw [infer, infer]
  exact corresponds_emit_pure h hx (.closed (.const trivial)) (.of_params rfl rfl rfl)

theorem var {name : String} {typeArgs : Option (List Ty)} {ty : Ty}
    (hn : (Expr.var name typeArgs ty).NodeOver .all) :
    Simulates (.var name typeArgs ty) (.var name typeArgs ty) := by
  refine ⟨rfl, fun {f K env env' x x' run run'} h he hx => ?_⟩
  rw [infer, infer]
  have hname := he name
  generalize env.lookup? name = o at hname
  generalize env'.lookup? name = o' at hname
  cases hname with
  | none => exact corresponds_fail _ rfl _ _
  | some hname =>
    cases hname with
    | none => exact .fault
    | @some g g' hg =>
      refine corresponds_bind (corresponds_instantiate h hg) ?_
      rintro f₁ ⟨t, vs⟩ ⟨t', vs'⟩ run₁ run₁' _ _ hup hr ⟨ht, hvs⟩
      cases typeArgs with
      | none =>
        exact corresponds_emit_pure hr (hx.mono hup) ht (.of_params rfl rfl rfl)
      | some args =>
        have hargs : ∀ a ∈ args, a.Over .all 0 := fun a ha => hn.typeArguments a ha
        simp only [hg.2]
        by_cases hlen : (args.length != g.params.length) = true
        · simp only [hlen, if_true]
          exact corresponds_fail _ rfl _ _
        · simp only [hlen]
          refine corresponds_bind (unifyTypeArgs_corresponds hr hargs hvs _ _) ?_
          intro f₂ _ _ run₂ run₂' _ _ hup₂ hr _
          exact corresponds_emit_pure hr (hx.mono (hup.trans hup₂)) (ht.mono hup₂)
            (.of_params rfl rfl rfl)

theorem func {params : List Param} {result ty ty' : Ty} {body body' : Expr}
    (hn : (Expr.func params result body' ty').NodeOver .all) (hb : Simulates body body') :
    Simulates (.func params result body ty) (.func params result body' ty') := by
  refine ⟨rfl, fun {f K env env' x x' run run'} h he hx => ?_⟩
  rw [infer, infer]
  refine corresponds_bind (openParams_corresponds h he hn.params) ?_
  rintro f₁ ⟨ps, inner⟩ ⟨ps', inner'⟩ run₁ run₁' _ _ hup₁ hr ⟨hps, hinner⟩
  refine corresponds_bind (corresponds_orFresh hr hn.result) ?_
  intro f₂ r r' run₂ run₂' _ _ hup₂ hr hres
  refine corresponds_bind (hb.runs hr (hinner.mono hup₂) hres) ?_
  intro f₃ b b' run₃ run₃' _ _ hup₃ hr hbody
  have hup := hup₂.trans hup₃
  have hps₃ := hps.imp fun _ _ ht => ht.mono hup
  exact corresponds_emit_pure hr (hx.mono (hup₁.trans hup)) (.function hps₃ (hres.mono hup₃))
    (.of_params (by simpa using hbody.params) rfl rfl)

theorem call {callee callee' : Expr} {args args' : List Expr} (hc : Simulates callee callee')
    (ha : List.Forall₂ Simulates args args') (ty ty' : Ty) :
    Simulates (.call callee args ty) (.call callee' args' ty') := by
  refine ⟨rfl, fun {f K env env' x x' run run'} h he hx => ?_⟩
  rw [infer, infer, ← ha.length_eq]
  refine corresponds_bind (corresponds_freshList h args.length) ?_
  intro f₁ ts ts' run₁ run₁' _ _ hup₁ hr hts
  refine corresponds_bind (hc.runs hr (he.mono hup₁) (.function hts (hx.mono hup₁))) ?_
  intro f₂ c c' run₂ run₂' _ _ hup₂ hr hcallee
  refine corresponds_bind (inferEach_corresponds hr (he.mono (hup₁.trans hup₂))
    (hts.imp fun _ _ ht => ht.mono hup₂) ha) ?_
  intro f₃ ds ds' run₃ run₃' _ _ _ hr hds
  exact corresponds_pure hr (.of_params (by simp [hcallee.params, hds]) rfl rfl)

theorem letIn {name : String} {annot ty ty' : Ty} {value value' body body' : Expr}
    (hn : (Expr.letIn name annot value' body' ty').NodeOver .all) (hv : Simulates value value')
    (hb : Simulates body body') :
    Simulates (.letIn name annot value body ty) (.letIn name annot value' body' ty') := by
  refine ⟨rfl, fun {f K env env' x x' run run'} h he hx => ?_⟩
  rw [infer, infer, hb.absent]
  refine corresponds_bind (corresponds_orFresh h hn.annot) ?_
  intro f₁ a a' run₁ run₁' _ _ hup₁ hr ha
  refine corresponds_bind (hv.runs hr (he.mono hup₁) ha) ?_
  intro f₂ v v' run₂ run₂' _ _ hup₂ hr hvalue
  have hup := hup₁.trans hup₂
  have ha₂ := ha.mono hup₂
  cases body.isAbsent with
  | true =>
    refine corresponds_emit_pure hr (hx.mono hup) ha₂ ⟨by simpa using hvalue.params, fun hΓ => ?_⟩
    exact hΓ.declare name ha₂
  | false =>
    refine corresponds_bind (hb.runs hr ((he.mono hup).declare name ha₂) (hx.mono hup)) ?_
    intro f₃ b b' run₃ run₃' hd hd' _ hr hbody
    exact corresponds_pure hr (.of_params (by simp [hvalue.params, hbody.params])
      (Expr.boundAfter?_let (infer_isAbsent hd) ..) (Expr.boundAfter?_let (infer_isAbsent hd') ..))

theorem group {bs bs' : List Binding} {body body' : Expr} {ty ty' : Ty}
    (hn : (Expr.group bs' body' ty').NodeOver .all) (hbs : List.Forall₂ Binding.Simulates bs bs')
    (hb : Simulates body body') : Simulates (.group bs body ty) (.group bs' body' ty') := by
  refine ⟨rfl, fun {f K env env' x x' run run'} h he hx => ?_⟩
  have hown : ∀ b ∈ bs', ∀ g, b.scheme = some g → g.body.Over .all 0 := fun b hm g hg =>
    hn.generics g (mem_generics hm hg)
  rw [infer, infer]
  refine corresponds_bind (corresponds_modify h rfl rfl rfl rfl) ?_
  intro f₁ _ _ run₁ run₁' _ _ hup₁ hr _
  refine corresponds_bind (corresponds_get hr) ?_
  intro f₂ _ _ run₂ run₂' _ _ hup₂ hr _
  refine corresponds_bind (placeholders_corresponds hr hbs hown) ?_
  intro f₃ ps ps' run₃ run₃' _ _ hup₃ hr hps
  have hopened := (hup₁.trans hup₂).trans hup₃
  have he₃ := he.mono hopened
  have hinside : (env.extendGroup bs ps).Embeds f₃ run₃.store.size (env'.extendGroup bs' ps') :=
    Env.Rel.extendGroup he₃ (Binding.Simulates.names hbs) hps fun _ _ _ _ hg => hg
  refine corresponds_bind (inferBindings_corresponds hr hinside hps hbs) ?_
  intro f₄ ts ts' run₄ run₄' _ _ hup₄ hr hts
  refine corresponds_bind (corresponds_get hr) ?_
  intro f₅ _ _ run₅ run₅' _ _ hup₅ hr _
  refine corresponds_bind (corresponds_modify hr rfl rfl rfl rfl) ?_
  intro f₆ _ _ run₆ run₆' _ _ hup₆ hr _
  refine corresponds_bind (corresponds_solveFor hr _ _) ?_
  intro f₇ _ _ run₇ run₇' _ _ hup₇ hr _
  -- the functions are generalised in the environment outside, with the placeholders from before
  have hsolved := ((hup₄.trans hup₅).trans hup₆).trans hup₇
  have he₇ := he₃.mono hsolved
  have hps₇ := hps.imp fun _ _ hp => hp.mono hsolved
  refine corresponds_bind (generalizeAll_corresponds hr he₇ he₇ hbs hown hps₇ hts _ _) ?_
  rintro f₈ ⟨ds, outer⟩ ⟨ds', outer'⟩ run₈ run₈' _ _ hup₈ hr ⟨houter, hdown, hdinner⟩
  refine corresponds_bind (hb.runs hr houter (hx.mono ((hopened.trans hsolved).trans hup₈))) ?_
  intro f₉ b b' run₉ run₉' _ _ _ hr hbody
  exact corresponds_pure hr (.of_params (by simp [hdown, hdinner, hbody.params]) rfl rfl)

theorem array {item ty ty' : Ty} {items items' : List Expr}
    (hn : (Expr.array item items' ty').NodeOver .all) (hi : List.Forall₂ Simulates items items') :
    Simulates (.array item items ty) (.array item items' ty') := by
  refine ⟨rfl, fun {f K env env' x x' run run'} h he hx => ?_⟩
  rw [infer, infer]
  refine corresponds_bind (corresponds_orFresh h hn.item) ?_
  intro f₁ a a' run₁ run₁' _ _ hup₁ hr ha
  refine corresponds_bind (inferAll_corresponds hr (he.mono hup₁) ha hi) ?_
  intro f₂ ds ds' run₂ run₂' _ _ hup₂ hr hds
  exact corresponds_emit_pure hr (hx.mono (hup₁.trans hup₂)) (.array (ha.mono hup₂))
    (.of_params (by simpa using hds) rfl rfl)

theorem seq {effect effect' value value' : Expr} (he : Simulates effect effect')
    (hv : Simulates value value') (ty ty' : Ty) :
    Simulates (.seq effect value ty) (.seq effect' value' ty') := by
  refine ⟨rfl, fun {f K env env' x x' run run'} h henv hx => ?_⟩
  rw [infer, infer]
  refine corresponds_bind (corresponds_fresh h) ?_
  intro f₁ u u' run₁ run₁' _ _ hup₁ hr hu
  refine corresponds_bind (he.runs hr (henv.mono hup₁) hu) ?_
  intro f₂ d d' run₂ run₂' _ _ hup₂ hr hd
  have hup := hup₁.trans hup₂
  refine corresponds_bind (hv.runs hr (henv.mono hup) (hx.mono hup)) ?_
  intro f₃ v v' run₃ run₃' _ _ _ hr hvalue
  exact corresponds_pure hr (.of_params (by simp [hd.params, hvalue.params]) rfl rfl)

theorem block {items items' : List Expr} (hi : List.Forall₂ Simulates items items') (ty ty' : Ty) :
    Simulates (.block items ty) (.block items' ty') := by
  refine ⟨rfl, fun {f K env env' x x' run run'} h he hx => ?_⟩
  rw [infer, infer]
  cases hi with
  | nil => exact corresponds_fail _ rfl _ _
  | cons hd hi =>
    simp only [List.isEmpty_cons, Bool.false_eq_true, if_false]
    refine corresponds_bind (inferItems_corresponds h he hx (.cons hd hi)) ?_
    intro f₁ ds ds' run₁ run₁' _ _ _ hr hds
    exact corresponds_pure hr (.of_params (by simpa using hds) rfl rfl)

/-- An expression simulates itself. -/
theorem refl {e : Expr} (he : e.Over .all) : Simulates e e := by
  induction e with
  | absent =>
    refine ⟨rfl, fun h he hx => ?_⟩
    rw [infer, infer]
    exact corresponds_fail _ rfl _ _
  | other kind =>
    refine ⟨rfl, fun h he hx => ?_⟩
    rw [infer, infer]
    exact corresponds_fail _ rfl _ _
  | int value ty => exact int value ty ty
  | str value ty => exact str value ty ty
  | var name typeArgs ty => exact var (Expr.every_var.mp he)
  | func params result body ty ih =>
    obtain ⟨hn, hb⟩ := Expr.every_func.mp he
    exact func hn (ih hb)
  | call callee args ty ihf iha =>
    obtain ⟨_, hf, ha⟩ := Expr.every_call.mp he
    exact call (ihf hf) (List.forall₂_same.mpr fun a hm => iha a hm (ha a hm)) ty ty
  | letIn name annot value body ty ihv ihb =>
    obtain ⟨hn, hv, hb⟩ := Expr.every_letIn.mp he
    exact letIn hn (ihv hv) (ihb hb)
  | group bs body ty ihf ihb =>
    obtain ⟨hn, hf, hb⟩ := Expr.every_group.mp he
    exact group hn (List.forall₂_same.mpr fun b hm => .refl fun e hfn =>
      ihf b hm e hfn (hf b hm e hfn)) (ihb hb)
  | array item items ty ih =>
    obtain ⟨hn, hi⟩ := Expr.every_array.mp he
    exact array hn (List.forall₂_same.mpr fun a hm => ih a hm (hi a hm))
  | seq effect value ty ihe ihv =>
    obtain ⟨_, he, hv⟩ := Expr.every_seq.mp he
    exact seq (ihe he) (ihv hv) ty ty
  | block items ty ih =>
    obtain ⟨_, hi⟩ := Expr.every_block.mp he
    exact block (List.forall₂_same.mpr fun a hm => ih a hm (hi a hm)) ty ty

end Simulates

end

end Polytype
