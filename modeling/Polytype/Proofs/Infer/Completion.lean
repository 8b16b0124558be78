import Mathlib
import Polytype.Proofs.Expr.Erasure
import Polytype.Proofs.Infer.Invariant

/-!
# Annotated trees are complete

Inference builds the tree anew, node by node; a group changes its functions a second time when they are
generalised, and at the end all types are resolved. What comes out is the program with other types:

* `infer_retypes` — without types the two are the same tree, and nothing is missing in the result. This
  needs no condition on the program.
* `infer_completes` — every type that can stand at a node is there and whole, if what the program and the
  environment give has no missing parts. The types that a group resolves are those of a store, so that
  this is an invariant of the run (`infer_leads`).
-/

namespace Polytype

open InferM

/-! ## The same tree -/

/-- A tree is another one with other types, and nothing is missing in it. -/
structure Expr.Retypes (d e : Expr) : Prop where
  formed : d.Formed
  erase : d.erase = e.erase

/-- The same for functions of groups. -/
structure Binding.Retypes (d b : Binding) : Prop where
  erase : Expr.eraseBinding d = Expr.eraseBinding b
  formed : ∃ f, d.func? = some f ∧ f.Formed

namespace Expr.Retypes

variable {d e b c : Expr} {t t' : Ty}

theorem mapTypes (h : d.Retypes e) (f : Ty → Ty) : (d.mapTypes f).Retypes e :=
  ⟨h.formed.mapTypes f, (erase_mapTypes f d).trans h.erase⟩

theorem func {ps qs : List Param} {r r' : Ty} (hp : qs.map Param.erase = ps.map Param.erase)
    (h : d.Retypes e) : (Expr.func qs r' d t').Retypes (.func ps r e t) :=
  ⟨.func h.formed, by rw [Expr.erase, Expr.erase, hp, h.erase]⟩

theorem lists {ds es : List Expr} (h : List.Forall₂ Retypes ds es) :
    (∀ d ∈ ds, d.Formed) ∧ eraseList ds = eraseList es := by
  induction h with
  | nil => exact ⟨by simp, rfl⟩
  | cons h _ ih =>
    exact ⟨List.forall_mem_cons.mpr ⟨h.formed, ih.1⟩, by rw [eraseList, eraseList, h.erase, ih.2]⟩

theorem bindings {ds bs : List Binding} (h : List.Forall₂ Binding.Retypes ds bs) :
    (∀ d ∈ ds, ∃ f, d.func? = some f ∧ f.Formed) ∧ eraseBindings ds = eraseBindings bs := by
  induction h with
  | nil => exact ⟨by simp, rfl⟩
  | cons h _ ih =>
    exact ⟨List.forall_mem_cons.mpr ⟨h.formed, ih.1⟩,
      by rw [eraseBindings, eraseBindings, h.erase, ih.2]⟩

theorem group {ds bs : List Binding} (hs : List.Forall₂ Binding.Retypes ds bs) (h : d.Retypes e) :
    (Expr.group ds d t').Retypes (.group bs e t) := by
  obtain ⟨hformed, herase⟩ := bindings hs
  refine ⟨.group (fun b hb => ?_) (fun b hb f hf => ?_) h.formed, ?_⟩
  · obtain ⟨f, hf, _⟩ := hformed b hb
    rw [hf]
    rfl
  · obtain ⟨g, hg, hform⟩ := hformed b hb
    rw [hf] at hg
    cases hg
    exact hform
  · rw [Expr.erase, Expr.erase, herase, h.erase]

end Expr.Retypes

theorem Binding.Retypes.fn {name : String} {g g' : Option Scheme} {ps qs : List Param} {r r' t t' : Ty}
    {d e : Expr} (h : (Expr.func qs r' d t').Retypes (.func ps r e t)) :
    (Binding.fn name g' qs r' d t').Retypes (.fn name g ps r e t) := by
  have herase := h.erase
  rw [Expr.erase, Expr.erase, Expr.func.injEq] at herase
  refine ⟨?_, _, rfl, h.formed⟩
  rw [Expr.eraseBinding, Expr.eraseBinding, herase.1, herase.2.2.1]

section

variable {env : Env} {run run' : Run}

theorem openParams_erase {ps qs : List Param} {inner : Env}
    (h : (openParams env ps).Yields run (qs, inner) run') :
    qs.map Param.erase = ps.map Param.erase := by
  induction ps generalizing env run qs inner with
  | nil =>
    obtain ⟨⟨⟩, rfl⟩ := openParams_nil.mp h
    rfl
  | cons p ps ih =>
    obtain ⟨t, run₁, qs, inner, _, hrest, ⟨⟩⟩ := openParams_cons.mp h
    rw [List.map_cons, List.map_cons, ih hrest]
    rfl

/-- Inferring an expression gives it other types. -/
def Retyping (e : Expr) : Prop :=
  ∀ {env : Env} {x : Ty} {run run' : Run} {d : Expr}, (infer env x e).Yields run d run' → d.Retypes e

theorem inferAll_retypes {es ds : List Expr} {x : Ty} (ih : ∀ e ∈ es, Retyping e)
    (h : (inferAll env x es).Yields run ds run') : List.Forall₂ Expr.Retypes ds es := by
  induction es generalizing run ds with
  | nil =>
    obtain ⟨rfl, rfl⟩ := inferAll_nil.mp h
    exact .nil
  | cons e es ihs =>
    rw [List.forall_mem_cons] at ih
    obtain ⟨d, run₁, ds, hd, hds, rfl⟩ := inferAll_cons.mp h
    exact .cons (ih.1 hd) (ihs ih.2 hds)

theorem inferEach_retypes {es ds : List Expr} {ts : List Ty} (ih : ∀ e ∈ es, Retyping e)
    (h : (inferEach env ts es).Yields run ds run') (hlen : ts.length = es.length) :
    List.Forall₂ Expr.Retypes ds es := by
  induction es generalizing run ts ds with
  | nil =>
    obtain ⟨rfl, rfl⟩ := inferEach_nil.mp h
    exact .nil
  | cons e es ihs =>
    cases ts with
    | nil => cases hlen
    | cons t ts =>
      rw [List.forall_mem_cons] at ih
      obtain ⟨d, run₁, ds, hd, hds, rfl⟩ := inferEach_cons.mp h
      exact .cons (ih.1 hd) (ihs ih.2 hds (Nat.succ.inj hlen))

theorem inferItems_retypes {es ds : List Expr} {x : Ty} (ih : ∀ e ∈ es, Retyping e) (hne : es ≠ [])
    (h : (inferItems env x es).Yields run ds run') : List.Forall₂ Expr.Retypes ds es := by
  induction es generalizing env run ds with
  | nil => exact absurd rfl hne
  | cons e es ihs =>
    rw [List.forall_mem_cons] at ih
    cases es with
    | nil =>
      obtain ⟨d, hd, rfl⟩ := inferItems_last.mp h
      exact .cons (ih.1 hd) .nil
    | cons f es =>
      obtain ⟨d, run₁, ds, hd, hds, rfl⟩ := inferItems_cons.mp h
      exact .cons (ih.1 hd) (ihs ih.2 (by simp) hds)

theorem inferBindings_retypes {bs ts : List Binding} {ps : List Scheme}
    (ih : ∀ b ∈ bs, ∀ f, b.func? = some f → Retyping f)
    (h : (inferBindings env ps bs).Yields run ts run') (hlen : ps.length = bs.length) :
    List.Forall₂ Binding.Retypes ts bs := by
  induction bs generalizing run ps ts with
  | nil =>
    obtain ⟨rfl, rfl⟩ := inferBindings_nil.mp h
    exact .nil
  | cons b bs ihs =>
    cases ps with
    | nil => cases hlen
    | cons p ps =>
      rw [List.forall_mem_cons] at ih
      obtain ⟨d, run₁, ds, hd, hds, rfl⟩ := inferBindings_cons.mp h
      obtain ⟨name, g, params, result, body, ty, qs, r, c, rfl, hf, rfl⟩ := inferBinding_yields.mp hd
      exact .cons (.fn (ih.1 _ rfl hf)) (ihs ih.2 hds (Nat.succ.inj hlen))

/-- Generalising a function changes its types only. -/
theorem Generalized.retypes {s : Store} {outside : Env} {p g : Scheme} {own : Option Scheme}
    {b t d : Binding} (h : Generalized s outside p own t g d) (ht : t.Retypes b) : d.Retypes b := by
  obtain ⟨f, hf, hform⟩ := ht.formed
  cases h with
  | given =>
    cases hf
    exact ⟨ht.erase, _, rfl, hform⟩
  | closed _ =>
    cases hf
    exact ⟨ht.erase, _, rfl, hform⟩
  | @named _ store name old params result body ty _ =>
    cases hf
    refine ⟨Eq.trans ?_ ht.erase, _, rfl, ?_⟩
    · rw [Expr.eraseBinding, Expr.eraseBinding, Expr.erase_mapParam, Expr.erase_mapTypes]
    · have hmapped := hform.mapTypes store.resolve
      rwa [Expr.mapTypes] at hmapped

theorem GeneralizedAll.retypes {s : Store} {outside : Env} {bs cs ts ds : List Binding}
    {ps gs : List Scheme} (h : GeneralizedAll s outside cs ps ts gs ds)
    (ht : List.Forall₂ Binding.Retypes ts bs) : List.Forall₂ Binding.Retypes ds bs := by
  induction h generalizing bs with
  | nil =>
    cases ht
    exact .nil
  | cons hg _ ih =>
    cases ht with
    | cons ht hrest => exact .cons (hg.retypes ht) (ih hrest)

/-- Inference keeps the tree and changes its types. -/
theorem infer_retypes (e : Expr) : Retyping e := by
  induction e with
  | absent => exact fun h => absurd h not_infer_absent
  | other kind => exact fun h => absurd h not_infer_other
  | int value ty =>
    intro env x run run' d h
    obtain ⟨rfl, rfl⟩ := infer_int.mp h
    exact ⟨.int value x, rfl⟩
  | str value ty =>
    intro env x run run' d h
    obtain ⟨rfl, rfl⟩ := infer_str.mp h
    exact ⟨.str value x, rfl⟩
  | var name typeArgs ty =>
    intro env x run run' d h
    obtain ⟨g, run₁, _, _, _, rfl, rfl⟩ := infer_var.mp h
    exact ⟨.var name typeArgs x, rfl⟩
  | func params result body ty ih =>
    intro env x run run' d h
    obtain ⟨ps, inner, run₁, r, run₂, b, run₃, hp, _, hb, rfl, rfl⟩ := infer_func.mp h
    exact .func (openParams_erase hp) (ih hb)
  | call callee args ty ihf iha =>
    intro env x run run' d h
    obtain ⟨f, run₁, es, hf, hes, rfl⟩ := infer_call.mp h
    obtain ⟨hformed, herase⟩ := Expr.Retypes.lists (inferEach_retypes iha hes (length_freshList _ _))
    exact ⟨.call (ihf hf).formed hformed, by rw [Expr.erase, Expr.erase, (ihf hf).erase, herase]⟩
  | letIn name annot value body ty ihv ihb =>
    intro env x run run' d h
    cases hab : body.isAbsent with
    | true =>
      obtain rfl := Expr.isAbsent_iff.mp hab
      obtain ⟨a, run₁, v, run₂, _, hv, rfl, rfl⟩ := infer_let_alone.mp h
      exact ⟨.letAlone (ihv hv).formed, by simp only [Expr.erase, (ihv hv).erase]⟩
    | false =>
      obtain ⟨a, run₁, v, run₂, b, _, hv, hb, rfl⟩ := (infer_let hab).mp h
      exact ⟨.letIn (ihv hv).formed (ihb hb).formed,
        by rw [Expr.erase, Expr.erase, (ihv hv).erase, (ihb hb).erase]⟩
  | group bs body ty ihf ihb =>
    intro env x run run' d h
    obtain ⟨ps, run₁, ts, run₂, run₃, gs, ds, log, b, hp, ht, _, hga, hb, rfl⟩ := infer_group_cases h
    exact .group (hga.retypes (inferBindings_retypes ihf ht (placeholders_length hp))) (ihb hb)
  | array item items ty ih =>
    intro env x run run' d h
    obtain ⟨a, run₁, es, run₂, _, hes, rfl, rfl⟩ := infer_array.mp h
    obtain ⟨hformed, herase⟩ := Expr.Retypes.lists (inferAll_retypes ih hes)
    exact ⟨.array hformed, by rw [Expr.erase, Expr.erase, herase]⟩
  | seq effect value ty ihe ihv =>
    intro env x run run' d h
    obtain ⟨f, run₁, v, hf, hv, rfl⟩ := infer_seq.mp h
    exact ⟨.seq (ihe hf).formed (ihv hv).formed,
      by rw [Expr.erase, Expr.erase, (ihe hf).erase, (ihv hv).erase]⟩
  | block items ty ih =>
    intro env x run run' d h
    obtain ⟨hne, es, hes, rfl⟩ := infer_block.mp h
    obtain ⟨hformed, herase⟩ := Expr.Retypes.lists (inferItems_retypes ih hne hes)
    exact ⟨.block hformed, by rw [Expr.erase, Expr.erase, herase]⟩

end

/-! ## All types -/

namespace Expr

/-- The functions of a group. -/
def functions : Expr → List Binding
  | group bindings _ _ => bindings
  | _ => []

/-- No type is missing at a node, nor any part of one: its inferred type, its annotations, the type
arguments it was given, and the generic types of its functions. -/
structure Complete (n : Expr) : Prop where
  ty : n.ty.Whole
  annotations : ∀ t ∈ n.annotations, t.Whole
  typeArguments : ∀ t ∈ n.typeArguments, t.Whole
  generics : ∀ b ∈ n.functions, ∃ g, b.scheme = some g ∧ g.body.Whole

namespace Complete

theorem of_bare {n : Expr} (ht : n.ty.Whole) (ha : n.annotations = []) (hts : n.typeArguments = [])
    (hf : n.functions = []) : n.Complete :=
  ⟨ht, by simp [ha], by simp [hts], by simp [hf]⟩

theorem of_annotated {n : Expr} (ht : n.ty.Whole) (ha : ∀ t ∈ n.annotations, t.Whole)
    (hts : n.typeArguments = []) (hf : n.functions = []) : n.Complete :=
  ⟨ht, ha, by simp [hts], by simp [hf]⟩

theorem func {params : List Param} {result ty : Ty} {body : Expr} (ht : ty.Whole)
    (hp : ∀ p ∈ params, p.ty.Whole) (hr : result.Whole) : (Expr.func params result body ty).Complete := by
  refine .of_annotated ht (fun t h => ?_) rfl rfl
  rcases List.mem_append.mp h with h | h
  · obtain ⟨p, hp', rfl⟩ := List.mem_map.mp h
    exact hp p hp'
  · rw [List.mem_singleton.mp h]
    exact hr

end Complete

section

variable {f : Ty → Ty}

theorem ty_mapTypes (n : Expr) : (n.mapTypes f).ty = mapPresent f n.ty := by
  cases n <;> rfl

theorem annotations_mapTypes (n : Expr) :
    (n.mapTypes f).annotations = n.annotations.map (mapPresent f) := by
  cases n with
  | func params result body ty =>
    rw [mapTypes, annotations, annotations, List.map_append, List.map_map, List.map_map]
    rfl
  | _ => rfl

theorem typeArguments_mapTypes (n : Expr) :
    (n.mapTypes f).typeArguments = n.typeArguments.map (mapPresent f) := by
  cases n with
  | var name typeArgs ty => cases typeArgs <;> rfl
  | _ => rfl

theorem functions_mapTypes (n : Expr) :
    (n.mapTypes f).functions = n.functions.map (mapTypesBinding f) := by
  cases n with
  | group bindings body ty => rw [mapTypes, functions, functions, mapTypesBindings_eq]
  | _ => rfl

theorem whole_mapPresent (hf : ∀ t, t.Whole → (f t).Whole) {t : Ty} (ht : t.Whole) :
    (mapPresent f t).Whole := by
  cases t with
  | absent => exact absurd ht Ty.not_whole_absent
  | var id => exact hf _ ht
  | con name args => exact hf _ ht

theorem Complete.mapTypes (hf : ∀ t, t.Whole → (f t).Whole) {n : Expr} (h : n.Complete) :
    (n.mapTypes f).Complete := by
  refine ⟨?_, ?_, ?_, ?_⟩
  · rw [ty_mapTypes]
    exact whole_mapPresent hf h.ty
  · rw [annotations_mapTypes]
    exact List.forall_mem_map.mpr fun t ht => whole_mapPresent hf (h.annotations t ht)
  · rw [typeArguments_mapTypes]
    exact List.forall_mem_map.mpr fun t ht => whole_mapPresent hf (h.typeArguments t ht)
  · rw [functions_mapTypes]
    refine List.forall_mem_map.mpr fun b hb => ?_
    obtain ⟨g, hg, hw⟩ := h.generics b hb
    exact ⟨mapScheme f g, by rw [Binding.scheme_mapTypes, hg]; rfl, whole_mapPresent hf hw⟩

end

end Expr

section

variable {V : Vocabulary} {env : Env} {run run' : Run}

/-- What is inferred for an expression is complete. -/
def Completing (V : Vocabulary) (e : Expr) : Prop :=
  ∀ {env : Env} {x : Ty} {run run' : Run} {d : Expr}, (infer env x e).Yields run d run' →
    run.WF V → env.Over V run.store.size → x.Over V run.store.size → e.Over V →
    d.Every Expr.Complete

theorem inferAll_completes {es ds : List Expr} {x : Ty} (ih : ∀ e ∈ es, Completing V e)
    (h : (inferAll env x es).Yields run ds run') (hr : run.WF V) (he : env.Over V run.store.size)
    (hx : x.Over V run.store.size) (hes : ∀ e ∈ es, e.Over V) : ∀ d ∈ ds, d.Every Expr.Complete := by
  induction es generalizing run ds with
  | nil =>
    obtain ⟨rfl, rfl⟩ := inferAll_nil.mp h
    simp
  | cons e es ihs =>
    rw [List.forall_mem_cons] at ih hes
    obtain ⟨d, run₁, ds, hd, hds, rfl⟩ := inferAll_cons.mp h
    have hl := (infer_leads V e hd hr he hx hes.1).1
    exact List.forall_mem_cons.mpr ⟨ih.1 hd hr he hx hes.1,
      ihs ih.2 hds hl.wf (he.mono hl.size) (hx.mono hl.size) hes.2⟩

theorem inferEach_completes {es ds : List Expr} {ts : List Ty} (ih : ∀ e ∈ es, Completing V e)
    (h : (inferEach env ts es).Yields run ds run') (hlen : ts.length = es.length) (hr : run.WF V)
    (he : env.Over V run.store.size) (ht : ∀ t ∈ ts, t.Over V run.store.size)
    (hes : ∀ e ∈ es, e.Over V) : ∀ d ∈ ds, d.Every Expr.Complete := by
  induction es generalizing run ts ds with
  | nil =>
    obtain ⟨rfl, rfl⟩ := inferEach_nil.mp h
    simp
  | cons e es ihs =>
    cases ts with
    | nil => cases hlen
    | cons t ts =>
      rw [List.forall_mem_cons] at ih hes ht
      obtain ⟨d, run₁, ds, hd, hds, rfl⟩ := inferEach_cons.mp h
      have hl := (infer_leads V e hd hr he ht.1 hes.1).1
      exact List.forall_mem_cons.mpr ⟨ih.1 hd hr he ht.1 hes.1,
        ihs ih.2 hds (Nat.succ.inj hlen) hl.wf (he.mono hl.size)
          (fun u hu => (ht.2 u hu).mono hl.size) hes.2⟩

theorem inferItems_completes {es ds : List Expr} {x : Ty} (ih : ∀ e ∈ es, Completing V e)
    (hne : es ≠ []) (h : (inferItems env x es).Yields run ds run') (hr : run.WF V)
    (he : env.Over V run.store.size) (hx : x.Over V run.store.size) (hes : ∀ e ∈ es, e.Over V) :
    ∀ d ∈ ds, d.Every Expr.Complete := by
  induction es generalizing env run ds with
  | nil => exact absurd rfl hne
  | cons e es ihs =>
    rw [List.forall_mem_cons] at ih hes
    cases es with
    | nil =>
      obtain ⟨d, hd, rfl⟩ := inferItems_last.mp h
      exact List.forall_mem_singleton.mpr (ih.1 hd hr he hx hes.1)
    | cons f es =>
      obtain ⟨d, run₁, ds, hd, hds, rfl⟩ := inferItems_cons.mp h
      have ha := Run.Leads.alloc hr 1
      have he' := he.mono ha.size
      obtain ⟨hl, hafter⟩ := infer_leads V e hd ha.wf he' (over_fresh run) hes.1
      have hal := ha.trans hl
      exact List.forall_mem_cons.mpr ⟨ih.1 hd ha.wf he' (over_fresh run) hes.1,
        ihs ih.2 (by simp) hds hl.wf (hafter env (he.mono hal.size)) (hx.mono hal.size) hes.2⟩

theorem inferBindings_completes {bs ts : List Binding} {ps : List Scheme}
    (ih : ∀ b ∈ bs, ∀ f, b.func? = some f → Completing V f)
    (h : (inferBindings env ps bs).Yields run ts run') (hlen : ps.length = bs.length)
    (hr : run.WF V) (he : env.Over V run.store.size)
    (hp : ∀ p ∈ ps, p.body.Over V run.store.size)
    (hbs : ∀ b ∈ bs, ∀ f, b.func? = some f → f.Over V) :
    ∀ t ∈ ts, ∀ f, t.func? = some f → f.Every Expr.Complete := by
  induction bs generalizing run ps ts with
  | nil =>
    obtain ⟨rfl, rfl⟩ := inferBindings_nil.mp h
    simp
  | cons b bs ihs =>
    cases ps with
    | nil => cases hlen
    | cons p ps =>
      rw [List.forall_mem_cons] at ih hbs hp
      obtain ⟨d, run₁, ds, hd, hds, rfl⟩ := inferBindings_cons.mp h
      obtain ⟨name, g, params, result, body, ty, qs, r, c, rfl, hf, rfl⟩ := inferBinding_yields.mp hd
      have hl := (infer_leads V _ hf hr he hp.1 (hbs.1 _ rfl)).1
      refine List.forall_mem_cons.mpr ⟨?_, ihs ih.2 hds (Nat.succ.inj hlen) hl.wf (he.mono hl.size)
        (fun q hq => (hp.2 q hq).mono hl.size) hbs.2⟩
      rintro _ ⟨⟩
      exact ih.1 _ rfl hf hr he hp.1 (hbs.1 _ rfl)

/-- Generalisation keeps functions complete: it replaces variables by names. -/
theorem Generalized.complete (hg : ¬ V.gaps) (hr : run.WF V) {p g : Scheme} {own : Option Scheme}
    {t d : Binding} (h : Generalized run.store env p own t g d)
    (ht : ∀ f, t.func? = some f → f.Every Expr.Complete) :
    d.scheme = some g ∧ ∀ f, d.func? = some f → f.Every Expr.Complete := by
  cases h with
  | given => exact ⟨rfl, ht⟩
  | closed _ => exact ⟨rfl, ht⟩
  | @named _ store name old params result body ty hc =>
    have hcloses := closing_closes hr.acyclic hc
    have hwhole : ∀ u : Ty, u.Whole → (store.resolve u).Whole := by
      intro u hu
      rw [hcloses.store store rfl]
      have hres : (run.store.resolve u).Whole := by
        rw [Store.resolve_eq_subst]
        exact hu.subst fun i _ => hr.store.whole_resolve hr.acyclic hg i
      refine hres.subst fun i _ => ?_
      rcases named_cases (run.store.generalizable env p.body) g.params i with h | ⟨n, _, h⟩
      · rw [h]
        exact Ty.whole_var i
      · rw [h]
        simp
    refine ⟨rfl, ?_⟩
    rintro _ ⟨⟩
    have hmapped := Expr.every_mapTypes.mpr ((ht _ rfl).imp fun n hn => hn.mapTypes hwhole)
    rwa [Expr.mapTypes] at hmapped

theorem GeneralizedAll.complete (hg : ¬ V.gaps) (hr : run.WF V) {bs ts ds : List Binding}
    {ps gs : List Scheme} (h : GeneralizedAll run.store env bs ps ts gs ds)
    (ht : ∀ t ∈ ts, ∀ f, t.func? = some f → f.Every Expr.Complete) :
    (∀ d ∈ ds, ∃ g ∈ gs, d.scheme = some g) ∧
      ∀ d ∈ ds, ∀ f, d.func? = some f → f.Every Expr.Complete := by
  generalize hs : run.store = s at h
  induction h with
  | nil => simp
  | @cons b t d p g bs ts ds ps gs hd _ ih =>
    subst hs
    rw [List.forall_mem_cons] at ht
    obtain ⟨hscheme, hfunc⟩ := hd.complete hg hr ht.1
    obtain ⟨hschemes, hfuncs⟩ := ih ht.2
    refine ⟨List.forall_mem_cons.mpr ⟨⟨g, List.mem_cons_self, hscheme⟩, fun d hd => ?_⟩,
      List.forall_mem_cons.mpr ⟨hfunc, hfuncs⟩⟩
    obtain ⟨g', hg', hs⟩ := hschemes d hd
    exact ⟨g', List.mem_cons_of_mem _ hg', hs⟩

theorem group_completes (hg : ¬ V.gaps) {bs : List Binding} {body : Expr} {ty : Ty}
    (ihf : ∀ b ∈ bs, ∀ f, b.func? = some f → Completing V f) (ihb : Completing V body) :
    Completing V (.group bs body ty) := by
  intro env x run run' d h hr he hx heo
  obtain ⟨hn, hfuncs, hbody⟩ := Expr.every_group.mp heo
  obtain ⟨ps, run₁, ts, run₂, run₃, gs, ds, b, hrun, rfl⟩ := group_run
    (fun b _ f _ => infer_leads V f) (infer_leads V body) h hr he hx heo
  have hts := inferBindings_completes ihf hrun.inferred hrun.length hrun.opened.wf hrun.inside
    hrun.bodies hfuncs
  obtain ⟨hschemes, hds⟩ := hrun.generalized.complete hg hrun.settled.wf hts
  have hgs := hrun.generalized.over hrun.settled.wf
    (fun p hp => (hrun.bodies p hp).mono (hrun.typed.trans hrun.settled).size)
    fun b hb g hbg => hn.generics g (mem_generics hb hbg)
  refine Expr.every_group.mpr ⟨⟨hx.whole hg, by simp [Expr.annotations], by simp [Expr.typeArguments],
    fun d hd => ?_⟩, hds,
    ihb hrun.continued hrun.settled.wf hrun.outside (hx.mono hrun.before.size) hbody⟩
  obtain ⟨g, hgs', hs⟩ := hschemes d hd
  exact ⟨g, hs, Ty.Over.whole (hgs g hgs') hg⟩

/-- Where no part of what is given is missing, none is missing in what is inferred. -/
theorem infer_completes (hg : ¬ V.gaps) (e : Expr) : Completing V e := by
  induction e with
  | absent => exact fun h => absurd h not_infer_absent
  | other kind => exact fun h => absurd h not_infer_other
  | int value ty =>
    intro env x run run' d h _ _ hx _
    obtain ⟨rfl, rfl⟩ := infer_int.mp h
    exact Expr.every_int.mpr (.of_bare (hx.whole hg) rfl rfl rfl)
  | str value ty =>
    intro env x run run' d h _ _ hx _
    obtain ⟨rfl, rfl⟩ := infer_str.mp h
    exact Expr.every_str.mpr (.of_bare (hx.whole hg) rfl rfl rfl)
  | var name typeArgs ty =>
    intro env x run run' d h _ _ hx heo
    obtain ⟨g, run₁, _, _, _, rfl, rfl⟩ := infer_var.mp h
    have hn := Expr.every_var.mp heo
    exact Expr.every_var.mpr ⟨hx.whole hg, by simp [Expr.annotations],
      fun t ht => (hn.typeArguments t ht).whole hg, by simp [Expr.functions]⟩
  | func params result body ty ih =>
    intro env x run run' d h hr he hx heo
    obtain ⟨ps, inner, run₁, r, run₂, b, run₃, hp, hres, hb, rfl, rfl⟩ := infer_func.mp h
    obtain ⟨hn, hbody⟩ := Expr.every_func.mp heo
    obtain ⟨hl₁, hps, hinner⟩ := openParams_leads hp hr he hn.params
    obtain ⟨hl₂, hro⟩ := orFresh_leads hres hl₁.wf hn.result
    exact Expr.every_func.mpr ⟨.func (hx.whole hg) (fun p hp => (hps p hp).whole hg) (hro.whole hg),
      ih hb hl₂.wf (hinner.mono hl₂.size) hro hbody⟩
  | call callee args ty ihf iha =>
    intro env x run run' d h hr he hx heo
    obtain ⟨f, run₁, es, hc, rfl⟩ := call_run (infer_leads V callee) (fun a _ => infer_leads V a) h hr he hx
      heo
    obtain ⟨_, hcallee, hargs⟩ := Expr.every_call.mp heo
    exact Expr.every_call.mpr ⟨.of_bare (hx.whole hg) rfl rfl rfl,
      ihf hc.called hc.opened.wf (he.mono hc.opened.size) hc.wanted hcallee,
      inferEach_completes iha hc.given (length_freshList _ _) hc.before.wf (he.mono hc.before.size) hc.fresh
        hargs⟩
  | letIn name annot value body ty ihv ihb =>
    intro env x run run' d h hr he hx heo
    obtain ⟨hn, hvalue, hbody⟩ := Expr.every_letIn.mp heo
    cases hab : body.isAbsent with
    | true =>
      obtain rfl := Expr.isAbsent_iff.mp hab
      obtain ⟨a, run₁, v, run₂, ha, hv, rfl, rfl⟩ := infer_let_alone.mp h
      obtain ⟨hl₁, hao⟩ := orFresh_leads ha hr hn.annot
      exact Expr.every_letIn.mpr
        ⟨.of_annotated (hx.whole hg) (List.forall_mem_singleton.mpr (hao.whole hg)) rfl rfl,
          ihv hv hl₁.wf (he.mono hl₁.size) hao hvalue, Expr.every_absent⟩
    | false =>
      obtain ⟨a, run₁, v, run₂, b, hl, rfl⟩ := let_run hab (infer_leads V value) (infer_leads V body) h hr he
        hx heo
      exact Expr.every_letIn.mpr
        ⟨.of_annotated (hx.whole hg) (List.forall_mem_singleton.mpr (hl.wanted.whole hg)) rfl rfl,
          ihv hl.valued hl.opened.wf (he.mono hl.opened.size) hl.wanted hvalue,
          ihb hl.continued hl.before.wf hl.inside (hx.mono hl.before.size) hbody⟩
  | group bs body ty ihf ihb => exact group_completes hg ihf ihb
  | array item items ty ih =>
    intro env x run run' d h hr he hx heo
    obtain ⟨a, run₁, es, run₂, ha, hes, rfl, rfl⟩ := infer_array.mp h
    obtain ⟨hn, hitems⟩ := Expr.every_array.mp heo
    obtain ⟨hl₁, hao⟩ := orFresh_leads ha hr hn.item
    exact Expr.every_array.mpr
      ⟨.of_annotated (hx.whole hg) (List.forall_mem_singleton.mpr (hao.whole hg)) rfl rfl,
        inferAll_completes ih hes hl₁.wf (he.mono hl₁.size) hao hitems⟩
  | seq effect value ty ihe ihv =>
    intro env x run run' d h hr he hx heo
    obtain ⟨f, run₁, v, hs, rfl⟩ := seq_run (infer_leads V effect) (infer_leads V value) h hr he hx heo
    obtain ⟨_, heffect, hvalue⟩ := Expr.every_seq.mp heo
    exact Expr.every_seq.mpr ⟨.of_bare (hx.whole hg) rfl rfl rfl,
      ihe hs.effected hs.opened.wf (he.mono hs.opened.size) (over_fresh run) heffect,
      ihv hs.continued hs.before.wf (he.mono hs.before.size) (hx.mono hs.before.size) hvalue⟩
  | block items ty ih =>
    intro env x run run' d h hr he hx heo
    obtain ⟨hne, es, hes, rfl⟩ := infer_block.mp h
    exact Expr.every_block.mpr ⟨.of_bare (hx.whole hg) rfl rfl rfl,
      inferItems_completes ih hne hes hr he hx (Expr.every_block.mp heo).2⟩

end

/-! ## Programs -/

/-- All leaves are allowed but missing ones. -/
def Vocabulary.gapless : Vocabulary := ⟨False, True, fun _ => True, trivial, trivial⟩

theorem Ty.Whole.over {t : Ty} (h : t.Whole) (n : Nat) : t.Over .gapless n :=
  ⟨fun _ => h, fun hv => absurd trivial hv, fun _ _ => trivial⟩

namespace Expr

/-- No type that a program gives has a missing part: its annotations, type arguments and generic types. -/
def Gapless (e : Expr) : Prop :=
  e.Every fun n => (∀ t ∈ n.annotations, t ≠ .absent → t.Whole) ∧
    (∀ t ∈ n.typeArguments, t.Whole) ∧ ∀ g ∈ n.generics, g.body.Whole

theorem Gapless.over {e : Expr} (h : e.Gapless) : e.Over .gapless :=
  h.imp fun _ hn => ⟨fun t ht hne => (hn.1 t ht hne).over 0, fun t ht => (hn.2.1 t ht).over 0,
    fun g hg => (hn.2.2 g hg).over 0⟩

/-- All types that stand at a node. -/
def types (n : Expr) : List Ty :=
  n.ty :: (n.annotations ++ n.typeArguments ++ n.generics.map (·.body))

theorem generics_mapTypes {f : Ty → Ty} (n : Expr) :
    (n.mapTypes f).generics = n.generics.map (mapScheme f) := by
  cases n with
  | group bindings body ty =>
    rw [mapTypes, generics, generics, mapTypesBindings_eq, List.filterMap_map, List.map_filterMap]
    exact List.filterMap_congr fun b _ => Binding.scheme_mapTypes b
  | _ => rfl

theorem types_mapTypes {f : Ty → Ty} (n : Expr) : (n.mapTypes f).types = n.types.map (mapPresent f) := by
  rw [types, types, ty_mapTypes, annotations_mapTypes, typeArguments_mapTypes, generics_mapTypes,
    List.map_cons, List.map_append, List.map_append, List.map_map, List.map_map]
  rfl

end Expr

theorem Context.after_of_yields {α : Type} {root : Expr} (hr : root.isAbsent = false)
    {action : InferM α} {a : α} {run : Run} (h : action.Yields .start a run) :
    (Context.new.call root action).2 = .after run := by
  have hrun : action Context.new.reset.run = .ok a run := h
  rw [Context.call_eq _ hr, hrun]

/-- An annotated program comes from a run, whose last state the context keeps. -/
theorem annotate_run {e d : Expr} {env : Option Env}
    (h : (Context.new.annotate e env).1.result = .ok d) :
    ∃ t run, (inferRoot (env.getD .empty) e).Yields .start (d, t) run ∧
      (Context.new.annotate e env).2 = .after run := by
  obtain ⟨hne, t, run, hrun⟩ := (@annotate_result (env.getD .empty) e d).mp h
  exact ⟨t, run, hrun, Context.after_of_yields hne
    (yields_bind.mpr ⟨(d, t), run, hrun, yields_pure.mpr ⟨rfl, rfl⟩⟩)⟩

/-- Annotating a program keeps its nodes and gives them all their types, in which no variable is left that
the run has bound. -/
theorem annotate_complete {e d : Expr} {env : Option Env}
    (henv : (env.getD .empty).All fun g => g.body.Whole) (he : e.Gapless)
    (h : (Context.new.annotate e env).1.result = .ok d) :
    d.erase = e.erase ∧ d.Formed ∧ d.Every fun n => n.Complete ∧
      ∀ t ∈ n.types, ∀ v ∈ t.vars, (Context.new.annotate e env).2.run.store.binding? v = none := by
  obtain ⟨t, run, hy, hkept⟩ := annotate_run h
  rw [hkept]
  have hover : (env.getD .empty).Over .gapless 0 := henv.imp fun g hg => .of_body (hg.over 0)
  obtain ⟨typed, run₁, hroot, hd⟩ := root_run hy hover he.over
  obtain ⟨rfl, _⟩ := Prod.mk.inj hd
  have hretypes := (infer_retypes e hroot.inferred).mapTypes run.store.resolve
  have hcomplete := infer_completes not_false e hroot.inferred hroot.opened hroot.scope hroot.expected
    he.over
  have hwf := hroot.settled.wf
  have hwhole : ∀ u : Ty, u.Whole → (run.store.resolve u).Whole := by
    intro u hu
    rw [Store.resolve_eq_subst]
    exact hu.subst fun i _ => hwf.store.whole_resolve hwf.acyclic not_false i
  refine ⟨hretypes.erase, hretypes.formed, Expr.every_mapTypes.mpr (hcomplete.imp fun n hn => ?_)⟩
  refine ⟨hn.mapTypes hwhole, ?_⟩
  rw [Expr.types_mapTypes, Expr.mapPresent_of_absent (Store.resolve_absent _), List.forall_mem_map]
  exact fun u _ v hv => Store.binding?_of_mem_resolve hwf.acyclic hv

attribute [local simp] Binding.func? Binding.scheme Expr.annotations Expr.typeArguments Expr.generics

/-- A function that returns its argument, and an array made with it in a block. -/
def boxed : Expr :=
  .group [.fn "f" none [⟨"x", .absent⟩] .absent (.var "x" none .absent) .absent]
    (.block [.letIn "z" .absent (.array .absent
        [.call (.var "f" (some [.int]) .absent) [.int 1 .absent] .absent] .absent) .absent .absent,
      .seq (.str "s" .absent) (.var "z" none .absent) .absent] .absent) .absent

/-- The same with its types. -/
def boxedTyped : Expr :=
  .group [.fn "f" (some ⟨["A"], .function [.con "A" []] (.con "A" [])⟩) [⟨"x", .con "A" []⟩] (.con "A" [])
      (.var "x" none (.con "A" [])) (.function [.con "A" []] (.con "A" []))]
    (.block [.letIn "z" (.array .int) (.array .int
        [.call (.var "f" (some [.int]) (.function [.int] .int)) [.int 1 .int] .int] (.array .int))
        .absent (.array .int),
      .seq (.str "s" .string) (.var "z" none (.array .int)) (.array .int)] (.array .int)) (.array .int)

theorem annotate_complete_boxed :
    boxed.Gapless ∧ (Context.new.annotate boxed none).1.result = .ok boxedTyped ∧
      boxedTyped.erase = boxed.erase ∧ boxedTyped.Every Expr.Complete := by
  have hgapless : boxed.Gapless := by
    simp [boxed, Expr.Gapless, Ty.int]
  have hresult : (Context.new.annotate boxed none).1.result = .ok boxedTyped := by cbv
  obtain ⟨herase, _, hevery⟩ := annotate_complete Env.All.empty hgapless hresult
  exact ⟨hgapless, hresult, herase, hevery.imp fun n hn => hn.1⟩

/-- The first item of a value that is given the type of an array of a missing type. -/
def headOfMissing : Expr :=
  .call (.var "head" none .absent) [.var "x" (some [.array .absent]) .absent] .absent

/-- A missing part of a type argument can become the type of a node, though no annotation and no generic
type has one. -/
theorem exists_annotated_without_type :
    ∃ (env : Env) (d : Expr), (env.All fun g => g.body.Whole) ∧
      (headOfMissing.Every fun n => n.annotations = [] ∧ n.generics = []) ∧
      (Context.new.annotate headOfMissing (some env)).1.result = .ok d ∧ d.ty = .absent := by
  refine ⟨(Env.empty.declareGeneric "x" ["T"] (.con "T" [])).declareGeneric "head" ["T"]
      (.function [.array (.con "T" [])] (.con "T" [])),
    .call (.var "head" none (.function [.array .absent] .absent))
      [.var "x" (some [.array .absent]) (.array .absent)] .absent, ?_, ?_, by cbv, rfl⟩
  · exact (Env.All.empty.extend (by simp)).extend (by simp [Ty.function, Ty.array])
  · simp [headOfMissing]

end Polytype
