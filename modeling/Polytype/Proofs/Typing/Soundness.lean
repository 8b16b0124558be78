import Mathlib
import Polytype.Proofs.Infer.Invariant
import Polytype.Proofs.Typing.Judgment

/-!
# Soundness of inference

Every type that inference finds is derivable in the type system (`infer_hasType`).

The induction is over the expression, for every solution `σ` of the equations that are there *after* it
was inferred: whatever is added to a run later, the type expected of an expression, read through any
solution of the final state, is a type of the expression. The environment of the judgment has the same
generic types as that of the run, read through `σ`.

A group is generalised while its surroundings are still unknown. Its functions are typed by another
solution, `keepApart`, that agrees with `σ` on what the environment mentions and takes each other variable
to a variable of its own; these are the variables that the judgment generalises over.
-/

namespace Polytype

open InferM

/-! ## Generalisation under a solution -/

theorem exists_names (n : Nat) (avoid : List String) :
    ∃ names : List String, names.length = n ∧ names.Nodup ∧ ∀ x ∈ names, x ∉ avoid := by
  induction n with
  | zero => exact ⟨[], rfl, List.nodup_nil, by simp⟩
  | succ n ih =>
    obtain ⟨names, hlen, hdup, hnew⟩ := ih
    obtain ⟨x, hx⟩ := Infinite.exists_notMem_finset (names ++ avoid).toFinset
    simp only [List.mem_toFinset, List.mem_append, not_or] at hx
    refine ⟨x :: names, by simp [hlen], List.nodup_cons.mpr ⟨hx.1, hdup⟩, ?_⟩
    rw [List.forall_mem_cons]
    exact ⟨hx.2, hnew⟩

/-- An assignment at the variables that are kept; the others become variables above a bound. -/
def keepApart (σ : Int → Ty) (kept : List Int) (above : Int) (u : Int) : Ty :=
  if u ∈ kept then σ u else .var (above + u)

theorem exists_above (l : List Int) : ∃ m : Int, ∀ v ∈ l, v < m := by
  induction l with
  | nil => exact ⟨0, by simp⟩
  | cons v l ih =>
    obtain ⟨m, hm⟩ := ih
    refine ⟨max (v + 1) m, ?_⟩
    rw [List.forall_mem_cons]
    exact ⟨by omega, fun w hw => by have := hm w hw; omega⟩

section

variable {s : Store} {env Γ : Env} {σ : Int → Ty}

/-- The variables of what the environment mentions are mentioned by the environment of the
judgment. -/
theorem mem_vars_of_mem_varsUnder (hσ : s.SolvedBy σ) (hΓ : env.Rel (fun _ => Scheme.AtLeast σ) Γ)
    {u w : Int} (hu : u ∈ env.varsUnder s.resolve) (hw : w ∈ (σ u).vars) : w ∈ Γ.vars := by
  obtain ⟨x, g, hx, hu⟩ := Env.mem_varsUnder.mp hu
  obtain ⟨g', hx', hg⟩ := hΓ.lookup hx
  rw [Store.resolve_eq_subst] at hu
  obtain ⟨i, hi, hu⟩ := Ty.mem_vars_subst.mp hu
  refine Env.mem_vars.mpr ⟨x, g', hx', hg.mem_vars hi ?_⟩
  have hi' : σ i = (s.resolve (.var i)).subst σ := (Store.subst_resolve hσ (.var i)).symm
  rw [hi']
  exact Ty.mem_vars_subst.mpr ⟨u, hu, hw⟩

/-- A type that is closed in the run's environment is generalised in that of the judgment. -/
theorem Closes.generalizes {t : Ty} {scope : Expr} {g : Scheme} {store? : Option Store}
    (hc : Closes s env t scope g store?) (hσ : s.SolvedBy σ)
    (hΓ : env.Rel (fun _ => Scheme.Under σ) Γ)
    (ht : ∀ u ∈ (s.resolve t).vars, s.owns u = true) {m : Int} (hm : ∀ v ∈ Γ.vars, v < m) :
    ∃ g', Generalizes Γ ((s.resolve t).subst (keepApart σ (env.varsUnder s.resolve) m)) g' ∧
      Scheme.Under σ g g' := by
  have hless : env.Rel (fun _ => Scheme.AtLeast σ) Γ := hΓ.imp fun _ _ _ _ hu => hu.atLeast
  have hids : firstsNotIn ((s.resolve t).subst (keepApart σ (env.varsUnder s.resolve) m)).vars Γ.vars =
      (s.generalizable env t).map (m + ·) := by
    rw [Ty.vars_subst, Store.generalizable_of_owns ht]
    refine firstsNotIn_flatMap (fun v hv hn => ?_) (fun v _ hk w hw => ?_) fun v _ w _ h => by omega
    · refine ⟨by rw [keepApart, if_neg hn, Ty.vars_var], fun hmem => ?_⟩
      have := hm _ hmem
      have := (Store.owns_iff.mp (ht v hv)).1
      omega
    · rw [keepApart, if_pos hk] at hw
      exact mem_vars_of_mem_varsUnder hσ hless hk hw
  obtain ⟨names, hlen, hdup, hnew⟩ := exists_names g.params.length
    ((s.resolve t).subst (keepApart σ (env.varsUnder s.resolve) m)).names
  refine ⟨⟨names, ((s.resolve t).subst (keepApart σ (env.varsUnder s.resolve) m)).subst
    (named ((s.generalizable env t).map (m + ·)) names)⟩, ?_, ?_⟩
  · exact ⟨by rw [hids, List.length_map, ← hc.length]; exact hlen, hdup, hnew, by rw [hids]⟩
  · refine ⟨hlen, fun args ha => ?_⟩
    have hlen' : (s.generalizable env t).length = args.length := by rw [← hc.length, ha]
    rw [hc.applyUnder ha, Scheme.apply_named hdup (by rw [List.length_map, hlen', ha, hlen])
      (ha.trans hlen.symm) fun n hn hm => hnew n hn (Ty.names_of_consts hm), Ty.subst_subst]
    refine Ty.subst_congr fun u hu => ?_
    by_cases hk : u ∈ env.varsUnder s.resolve
    · -- what the environment mentions is not generalised on either side
      rw [keepApart, if_pos hk, assign_of_not_mem fun hi => (Store.mem_generalizable.mp hi).2 hk]
      refine Ty.subst_eq_self fun w hw => assign_of_not_mem fun hi => ?_
      obtain ⟨v, hv, rfl⟩ := List.mem_map.mp hi
      have := hm _ (mem_vars_of_mem_varsUnder hσ hless hk hw)
      have := (Store.owns_iff.mp (Store.mem_generalizable.mp hv).1.2).1
      omega
    · rw [keepApart, if_neg hk, Ty.subst_var]
      exact assign_map_ids (fun v _ h => by omega) hlen' σ .var
        (Store.mem_generalizable.mpr ⟨⟨hu, ht u hu⟩, hk⟩)

end

/-! ## Parts of inference -/

/-- A parameter with its type under an assignment. -/
def Param.subst (σ : Int → Ty) (p : Param) : Param := ⟨p.name, p.ty.subst σ⟩

section

variable {run run' : Run} {env Γ : Env} {σ : Int → Ty}

theorem orFresh_fills {a t : Ty} (h : (orFresh a).Yields run t run')
    (ha : a ≠ .absent → a.Over .all 0) : Fills a (t.subst σ) := by
  rcases yields_orFresh.mp h with ⟨rfl, _⟩ | ⟨hne, rfl, _⟩
  · exact .inl rfl
  · exact .inr (Ty.subst_closed ((ha hne).closed not_false) σ)

theorem declare_under (h : env.Rel (fun _ => Scheme.Under σ) Γ) (x : String) (t : Ty) :
    (env.declare x t).Rel (fun _ => Scheme.Under σ) (Γ.declare x (t.subst σ)) :=
  h.extend (.mono σ t) fun _ _ _ _ hs => hs

theorem openParams_typed {ps qs : List Param} {inner : Env}
    (h : (openParams env ps).Yields run (qs, inner) run')
    (hp : ∀ p ∈ ps, p.ty ≠ .absent → p.ty.Over .all 0)
    (hΓ : env.Rel (fun _ => Scheme.Under σ) Γ) :
    List.Forall₂ Param.Typed ps (qs.map (Param.subst σ)) ∧
      inner.Rel (fun _ => Scheme.Under σ) (Γ.declareParams (qs.map (Param.subst σ))) := by
  induction ps generalizing env Γ run qs inner with
  | nil =>
    obtain ⟨⟨⟩, rfl⟩ := openParams_nil.mp h
    exact ⟨.nil, hΓ⟩
  | cons p ps ih =>
    rw [List.forall_mem_cons] at hp
    obtain ⟨t, run₁, qs, inner, ht, hrest, ⟨⟩⟩ := openParams_cons.mp h
    obtain ⟨htyped, hinner⟩ := ih hrest hp.2 (declare_under hΓ p.name t)
    exact ⟨.cons ⟨rfl, orFresh_fills ht hp.1⟩ htyped, hinner⟩

/-- Type arguments are what a solution takes the variables of the parameters to. -/
theorem unifyTypeArgs_solves {invalid : Expr} {as vs : List Ty} {u : Unit}
    (h : (unifyTypeArgs invalid as vs).Yields run u run') (hlen : as.length = vs.length)
    (hr : run.WF .all) (ha : ∀ a ∈ as, a.Over .all 0) (hv : ∀ v ∈ vs, v.Over .all run.store.size)
    (hσ : run'.SolvedBy σ) : as = vs.map (Ty.subst σ) := by
  induction as generalizing vs run with
  | nil =>
    obtain rfl := List.length_eq_zero_iff.mp hlen.symm
    rfl
  | cons a as ih =>
    cases vs with
    | nil => cases hlen
    | cons v vs =>
      rw [List.forall_mem_cons] at ha hv
      obtain ⟨hn, hrest⟩ := unifyTypeArgs_cons.mp h
      have hl := Run.Leads.unify hr (ha.1.mono (Nat.zero_le _)) hv.1 hn
      have hv' : ∀ w ∈ vs, w.Over .all _ := fun w hw => (hv.2 w hw).mono hl.size
      have hl' := unifyTypeArgs_leads hrest (Nat.le_of_eq (Nat.succ.inj hlen)) hl.wf ha.2 hv'
      have heq := ((Run.solvedBy_unify hr hn).mp (hl'.solved σ hσ)).2
      rw [Ty.subst_closed (ha.1.closed not_false)] at heq
      rw [List.map_cons, ← heq, ← ih hrest (Nat.succ.inj hlen) hl.wf ha.2 hv']

/-! ## Inference -/

/-- Whatever solves the equations after the expression was inferred takes the expected type to a type
of the expression. -/
def Sound (e : Expr) : Prop :=
  ∀ {env : Env} {x : Ty} {run run' : Run} {d : Expr}, (infer env x e).Yields run d run' →
    run.WF .all → env.Over .all run.store.size → x.Over .all run.store.size → e.Plain .all →
    ∀ {σ : Int → Ty} {Γ : Env}, run'.SolvedBy σ → env.Rel (fun _ => Scheme.Under σ) Γ →
      HasType Γ e (x.subst σ)

theorem inferAll_sound {es ds : List Expr} {x : Ty} (ih : ∀ e ∈ es, Sound e)
    (h : (inferAll env x es).Yields run ds run') (hr : run.WF .all)
    (he : env.Over .all run.store.size) (hx : x.Over .all run.store.size)
    (hes : ∀ e ∈ es, e.Plain .all) (hσ : run'.SolvedBy σ)
    (hΓ : env.Rel (fun _ => Scheme.Under σ) Γ) : ∀ e ∈ es, HasType Γ e (x.subst σ) := by
  induction es generalizing run ds with
  | nil => simp
  | cons e es ihs =>
    rw [List.forall_mem_cons] at ih hes ⊢
    obtain ⟨d, run₁, ds, hd, hds, rfl⟩ := inferAll_cons.mp h
    have hl := (infer_leads .all e hd hr he hx hes.1.over).1
    have hl' := inferAll_leads (fun f _ => infer_leads .all f) hds hl.wf (he.mono hl.size)
      (hx.mono hl.size) fun f hf => (hes.2 f hf).over
    exact ⟨ih.1 hd hr he hx hes.1 (hl'.solved σ hσ) hΓ,
      ihs ih.2 hds hl.wf (he.mono hl.size) (hx.mono hl.size) hes.2⟩

theorem inferEach_sound {es ds : List Expr} {ts : List Ty} (ih : ∀ e ∈ es, Sound e)
    (h : (inferEach env ts es).Yields run ds run') (hlen : ts.length = es.length)
    (hr : run.WF .all) (he : env.Over .all run.store.size)
    (ht : ∀ t ∈ ts, t.Over .all run.store.size) (hes : ∀ e ∈ es, e.Plain .all)
    (hσ : run'.SolvedBy σ) (hΓ : env.Rel (fun _ => Scheme.Under σ) Γ) :
    HasEach Γ es (ts.map (Ty.subst σ)) := by
  induction es generalizing run ts ds with
  | nil =>
    obtain rfl := List.length_eq_zero_iff.mp hlen
    exact .nil
  | cons e es ihs =>
    cases ts with
    | nil => cases hlen
    | cons t ts =>
      rw [List.forall_mem_cons] at ih hes ht
      obtain ⟨d, run₁, ds, hd, hds, rfl⟩ := inferEach_cons.mp h
      have hl := (infer_leads .all e hd hr he ht.1 hes.1.over).1
      have ht' : ∀ u ∈ ts, u.Over .all _ := fun u hu => (ht.2 u hu).mono hl.size
      have hl' := inferEach_leads (fun f _ => infer_leads .all f) hds (Nat.succ.inj hlen) hl.wf
        (he.mono hl.size) ht' fun f hf => (hes.2 f hf).over
      exact .cons (ih.1 hd hr he ht.1 hes.1 (hl'.solved σ hσ) hΓ)
        (ihs ih.2 hds (Nat.succ.inj hlen) hl.wf (he.mono hl.size) ht' hes.2)

/-- The environment after an item is that of the judgment, read through a solution. -/
theorem after_under {x : Ty} {e d : Expr} (h : (infer env x e).Yields run d run')
    (hσ : run'.SolvedBy σ) (hΓ : env.Rel (fun _ => Scheme.Under σ) Γ) :
    (env.after d).Rel (fun _ => Scheme.Under σ) (Γ.afterItem e (x.subst σ)) := by
  cases hb : e.boundAfter? with
  | none =>
    rw [Env.after_eq_self ((infer_boundAfter h).trans hb), Env.afterItem, hb]
    exact hΓ
  | some name =>
    obtain ⟨annot, value, ty, rfl⟩ := Expr.boundAfter?_eq_some hb
    obtain ⟨a, run₁, v, run₂, _, _, rfl, rfl⟩ := infer_let_alone.mp h
    rw [Env.afterItem, hb, (Run.solvedBy_emit.mp hσ).2]
    exact declare_under hΓ name a

theorem inferItems_sound {es ds : List Expr} {x : Ty} (ih : ∀ e ∈ es, Sound e) (hne : es ≠ [])
    (h : (inferItems env x es).Yields run ds run') (hr : run.WF .all)
    (he : env.Over .all run.store.size) (hx : x.Over .all run.store.size)
    (hes : ∀ e ∈ es, e.Plain .all) (hσ : run'.SolvedBy σ)
    (hΓ : env.Rel (fun _ => Scheme.Under σ) Γ) : HasItems Γ es (x.subst σ) := by
  induction es generalizing env Γ run ds with
  | nil => exact absurd rfl hne
  | cons e es ihs =>
    rw [List.forall_mem_cons] at ih hes
    cases es with
    | nil =>
      obtain ⟨d, hd, rfl⟩ := inferItems_last.mp h
      exact .last (ih.1 hd hr he hx hes.1 hσ hΓ)
    | cons f es =>
      obtain ⟨d, run₁, ds, hd, hds, rfl⟩ := inferItems_cons.mp h
      have ha := Run.Leads.alloc hr 1
      obtain ⟨hl, hafter⟩ := infer_leads .all e hd ha.wf (he.mono ha.size) (over_fresh run) hes.1.over
      have hal := ha.trans hl
      have he' := hafter env (he.mono hal.size)
      have hl' := inferItems_leads (fun g _ => infer_leads .all g) (by simp) hds hl.wf he'
        (hx.mono hal.size) fun g hg => (hes.2 g hg).over
      have hσ₁ := hl'.solved σ hσ
      exact .cons (ih.1 hd ha.wf (he.mono ha.size) (over_fresh run) hes.1 hσ₁ hΓ)
        (ihs ih.2 (by simp) hds hl.wf he' (hx.mono hal.size) hes.2 (after_under hd hσ₁ hΓ))

theorem inferBindings_sound {bs ts : List Binding} {ps : List Scheme}
    (ih : ∀ b ∈ bs, ∀ f, b.func? = some f → Sound f)
    (h : (inferBindings env ps bs).Yields run ts run') (hlen : ps.length = bs.length)
    (hr : run.WF .all) (he : env.Over .all run.store.size)
    (hp : ∀ p ∈ ps, p.body.Over .all run.store.size)
    (hbs : ∀ b ∈ bs, ∀ f, b.func? = some f → f.Plain .all) (hσ : run'.SolvedBy σ)
    (hΓ : env.Rel (fun _ => Scheme.Under σ) Γ) :
    HasBindings Γ bs (ps.map fun p => p.body.subst σ) := by
  induction bs generalizing run ps ts with
  | nil =>
    obtain rfl := List.length_eq_zero_iff.mp hlen
    exact .nil
  | cons b bs ihs =>
    cases ps with
    | nil => cases hlen
    | cons p ps =>
      rw [List.forall_mem_cons] at ih hbs hp
      obtain ⟨d, run₁, ds, hd, hds, rfl⟩ := inferBindings_cons.mp h
      obtain ⟨name, g, params, result, body, ty, qs, r, c, rfl, hf, rfl⟩ :=
        inferBinding_yields.mp hd
      have hplain := hbs.1 _ rfl
      have hl := (infer_leads .all _ hf hr he hp.1 hplain.over).1
      have hp' : ∀ q ∈ ps, q.body.Over .all _ := fun q hq => (hp.2 q hq).mono hl.size
      have hl' := inferBindings_leads (fun b _ f _ => infer_leads .all f) hds (Nat.succ.inj hlen)
        hl.wf (he.mono hl.size) hp' fun b hb f hf => (hbs.2 b hb f hf).over
      exact .cons rfl (ih.1 _ rfl hf hr he hp.1 hplain (hl'.solved σ hσ) hΓ)
        (ihs ih.2 hds (Nat.succ.inj hlen) hl.wf (he.mono hl.size) hp' hbs.2)

/-! ## Groups -/

theorem placeholders_mono {bs : List Binding} {ps : List Scheme}
    (h : (placeholders bs).Yields run ps run') (hb : ∀ b ∈ bs, b.scheme = none) :
    ∀ p ∈ ps, p = .mono p.body := by
  induction bs generalizing run ps with
  | nil =>
    obtain ⟨rfl, rfl⟩ := placeholders_nil.mp h
    simp
  | cons b bs ih =>
    rw [List.forall_mem_cons] at hb
    obtain ⟨qs, hrest, rfl⟩ := (placeholders_open hb.1).mp h
    rw [List.forall_mem_cons]
    exact ⟨rfl, ih hrest hb.2⟩

/-- Functions without a given type are closed in the environment outside the group. -/
theorem GeneralizedAll.closes {s : Store} {bs ts ds : List Binding} {ps gs : List Scheme}
    (h : GeneralizedAll s env bs ps ts gs ds) (hs : s.Acyclic) (hb : ∀ b ∈ bs, b.scheme = none) :
    List.Forall₂ (fun p g => ∃ scope store?, Closes s env p.body scope g store?) ps gs := by
  induction h with
  | nil => exact .nil
  | cons hg _ ih =>
    rw [List.forall_mem_cons] at hb
    refine .cons ?_ (ih hb.2)
    rw [hb.1] at hg
    cases hg with
    | closed hc => exact ⟨_, _, closing_closes hs hc⟩
    | named hc => exact ⟨_, _, closing_closes hs hc⟩

theorem exists_generalizes {s : Store} {ps gs : List Scheme}
    (h : List.Forall₂ (fun p g => ∃ scope store?, Closes s env p.body scope g store?) ps gs)
    (hσ : s.SolvedBy σ) (hΓ : env.Rel (fun _ => Scheme.Under σ) Γ)
    (hp : ∀ p ∈ ps, ∀ u ∈ (s.resolve p.body).vars, s.owns u = true) {m : Int}
    (hm : ∀ v ∈ Γ.vars, v < m) :
    ∃ gs', List.Forall₂ (Generalizes Γ) (ps.map fun p =>
        (s.resolve p.body).subst (keepApart σ (env.varsUnder s.resolve) m)) gs' ∧
      List.Forall₂ (Scheme.Under σ) gs gs' := by
  induction h with
  | nil => exact ⟨[], .nil, .nil⟩
  | cons hc _ ih =>
    rw [List.forall_mem_cons] at hp
    obtain ⟨scope, store?, hc⟩ := hc
    obtain ⟨g', hgen, hunder⟩ := hc.generalizes hσ hΓ hp.1 hm
    obtain ⟨gs', hgens, hunders⟩ := ih hp.2
    exact ⟨g' :: gs', .cons hgen hgens, .cons hunder hunders⟩

/-- The solution that keeps variables apart agrees with the other one on the environment. -/
theorem under_keepApart {s : Store} (hσ : s.SolvedBy σ) (hΓ : env.Rel (fun _ => Scheme.Under σ) Γ)
    (m : Int) :
    env.Rel (fun _ => Scheme.Under fun i =>
      (s.resolve (.var i)).subst (keepApart σ (env.varsUnder s.resolve) m)) Γ := by
  refine hΓ.imp fun x g g' hx hg => hg.congr fun i hi => ?_
  rw [← Ty.subst_var σ i, ← Store.subst_resolve hσ (.var i)]
  refine Ty.subst_congr fun u hu => ?_
  rw [keepApart, if_pos]
  refine Env.mem_varsUnder.mpr ⟨x, g, hx, ?_⟩
  rw [Store.resolve_eq_subst]
  exact Ty.mem_vars_subst.mpr ⟨i, hi, hu⟩

theorem forall₂_under_mono {ps : List Scheme} (h : ∀ p ∈ ps, p = .mono p.body) :
    List.Forall₂ (Scheme.Under σ) ps ((ps.map fun p => p.body.subst σ).map .mono) := by
  induction ps with
  | nil => exact .nil
  | cons p ps ih =>
    rw [List.forall_mem_cons] at h
    refine .cons ?_ (ih h.2)
    have := Scheme.Under.mono σ p.body
    rwa [← h.1] at this

theorem var_sound (name : String) (typeArgs : Option (List Ty)) (ty : Ty) :
    Sound (.var name typeArgs ty) := by
  intro env x run run' d h hr he hx hpl σ Γ hσ hΓ
  obtain ⟨g, run₁, hg, hlen, hu, rfl, rfl⟩ := infer_var.mp h
  obtain ⟨g', hg', hunder⟩ := hΓ.lookup hg
  obtain ⟨hσ₁, heq⟩ := Run.solvedBy_emit.mp hσ
  have hl : ((Store.freshList g.params.length run.store).1.map (Ty.subst σ)).length =
      g.params.length := by
    rw [List.length_map, length_freshList]
  rw [heq, Scheme.subst_apply, ← hunder.apply_eq _ hl]
  refine .var hg' (hl.trans hunder.length.symm) fun given hgiven => ?_
  subst hgiven
  have ha := Run.Leads.alloc hr g.params.length
  exact unifyTypeArgs_solves hu ((hlen given rfl).trans (length_freshList _ _).symm) ha.wf
    (Expr.every_var.mp hpl).1.typeArguments (over_freshList run _) hσ₁

theorem func_sound {params : List Param} {result ty : Ty} {body : Expr} (ih : Sound body) :
    Sound (.func params result body ty) := by
  intro env x run run' d h hr he hx hpl σ Γ hσ hΓ
  obtain ⟨ps, inner, run₁, r, run₂, b, run₃, hp, hres, hb, rfl, rfl⟩ := infer_func.mp h
  obtain ⟨hn, hbody⟩ := Expr.every_func.mp hpl
  obtain ⟨hl₁, _, hinner⟩ := openParams_leads hp hr he hn.1.params
  obtain ⟨hl₂, hro⟩ := orFresh_leads hres hl₁.wf hn.1.result
  obtain ⟨hσ₃, heq⟩ := Run.solvedBy_emit.mp hσ
  obtain ⟨htyped, hinnerΓ⟩ := openParams_typed hp hn.1.params hΓ
  have hbt := ih hb hl₂.wf (hinner.mono hl₂.size) hro hbody hσ₃ hinnerΓ
  rw [heq, Ty.subst_function]
  have hmap : (ps.map (·.ty)).map (Ty.subst σ) = (ps.map (Param.subst σ)).map (·.ty) := by
    rw [List.map_map, List.map_map]
    rfl
  rw [hmap]
  exact .func htyped (orFresh_fills hres hn.1.result) hbt

theorem call_sound {callee : Expr} {args : List Expr} {ty : Ty} (ihf : Sound callee)
    (iha : ∀ a ∈ args, Sound a) : Sound (.call callee args ty) := by
  intro env x run run' d h hr he hx hpl σ Γ hσ hΓ
  obtain ⟨f, run₁, es, hc, rfl⟩ := call_run (infer_leads .all callee) (fun a _ => infer_leads .all a) h hr
    he hx (Expr.Plain.over hpl)
  obtain ⟨_, hcallee, hargs⟩ := Expr.every_call.mp hpl
  have hct := ihf hc.called hc.opened.wf (he.mono hc.opened.size) hc.wanted hcallee (hc.final.solved σ hσ)
    hΓ
  rw [Ty.subst_function] at hct
  exact .call hct (inferEach_sound iha hc.given (length_freshList _ _) hc.before.wf
    (he.mono hc.before.size) hc.fresh hargs hσ hΓ)

theorem let_alone_sound {name : String} {annot ty : Ty} {value : Expr} (ih : Sound value) :
    Sound (.letIn name annot value .absent ty) := by
  intro env x run run' d h hr he hx hpl σ Γ hσ hΓ
  obtain ⟨hn, hvalue, _⟩ := Expr.every_letIn.mp hpl
  obtain ⟨a, run₁, v, run₂, ha, hv, rfl, rfl⟩ := infer_let_alone.mp h
  obtain ⟨hl₁, hao⟩ := orFresh_leads ha hr hn.1.annot
  obtain ⟨hσ₂, heq⟩ := Run.solvedBy_emit.mp hσ
  rw [heq]
  exact .letAlone (orFresh_fills ha hn.1.annot)
    (ih hv hl₁.wf (he.mono hl₁.size) hao hvalue hσ₂ hΓ)

theorem let_sound {name : String} {annot ty : Ty} {value body : Expr} (hab : body.isAbsent = false)
    (ihv : Sound value) (ihb : Sound body) : Sound (.letIn name annot value body ty) := by
  intro env x run run' d h hr he hx hpl σ Γ hσ hΓ
  obtain ⟨hn, hvalue, hbody⟩ := Expr.every_letIn.mp hpl
  obtain ⟨a, run₁, v, run₂, b, hl, rfl⟩ := let_run hab (infer_leads .all value) (infer_leads .all body) h hr
    he hx (Expr.Plain.over hpl)
  exact .letIn hab (orFresh_fills hl.annotated hn.1.annot)
    (ihv hl.valued hl.opened.wf (he.mono hl.opened.size) hl.wanted hvalue (hl.final.solved σ hσ) hΓ)
    (ihb hl.continued hl.before.wf hl.inside (hx.mono hl.before.size) hbody hσ (declare_under hΓ name a))

/-- The functions of a group are typed by a solution of their own, which keeps apart the variables that the
environment does not mention. -/
theorem group_sound {bs : List Binding} {body : Expr} {ty : Ty}
    (ihf : ∀ b ∈ bs, ∀ f, b.func? = some f → Sound f) (ihb : Sound body) :
    Sound (.group bs body ty) := by
  intro env x run run' d h hr he hx hpl σ Γ hσ hΓ
  obtain ⟨hn, hfuncs, hbody⟩ := Expr.every_group.mp hpl
  have hnone := Expr.scheme_eq_none hn.2
  obtain ⟨ps, run₁, ts, run₂, run₃, gs, ds, b, hg, rfl⟩ :=
    group_run (fun _ _ f _ => infer_leads .all f) (infer_leads .all body) h hr he hx
      (Expr.Plain.over hpl)
  have hσ₃ : run₃.store.SolvedBy σ := (hg.final.solved σ hσ).store
  have hbodies : ∀ p ∈ ps, p.body.Over .all run₃.store.size := fun p hp =>
    (hg.bodies p hp).mono (hg.typed.trans hg.settled).size
  obtain ⟨m, hm⟩ := exists_above Γ.vars
  obtain ⟨gs', hgen, hunder⟩ := exists_generalizes
    (hg.generalized.closes hg.settled.wf.acyclic hnone) hσ₃ hΓ
    (fun p hp => hg.settled.wf.owns_resolve not_false (hbodies p hp)) hm
  have hτ : run₂.SolvedBy fun i => (run₃.store.resolve (.var i)).subst
      (keepApart σ (env.varsUnder run₃.store.resolve) m) :=
    (hg.solved _).mp ⟨Store.solvedBy_resolve hg.settled.wf.acyclic _, by simp [hg.empty]⟩
  have hmono := placeholders_mono hg.placed hnone
  have hinside := (under_keepApart hσ₃ hΓ m).extendGroup (rfl : bs.map (·.name) = _)
    (forall₂_under_mono hmono) fun _ _ _ _ hu => hu
  have hfun := inferBindings_sound ihf hg.inferred hg.length hg.opened.wf hg.inside hg.bodies
    hfuncs hτ hinside
  have hts : (ps.map fun p => (run₃.store.resolve p.body).subst
        (keepApart σ (env.varsUnder run₃.store.resolve) m)) =
      ps.map fun p => p.body.subst fun i => (run₃.store.resolve (.var i)).subst
        (keepApart σ (env.varsUnder run₃.store.resolve) m) :=
    List.map_congr_left fun p _ => by rw [Store.resolve_eq_subst, Ty.subst_subst]
  rw [hts] at hgen
  exact .group hnone hfun hgen (ihb hg.continued hg.settled.wf hg.outside
    (hx.mono hg.before.size) hbody hσ (hΓ.extendGroup rfl hunder fun _ _ _ _ hu => hu))

theorem array_sound {item ty : Ty} {items : List Expr} (ih : ∀ e ∈ items, Sound e) :
    Sound (.array item items ty) := by
  intro env x run run' d h hr he hx hpl σ Γ hσ hΓ
  obtain ⟨a, run₁, es, run₂, ha, hes, rfl, rfl⟩ := infer_array.mp h
  obtain ⟨hn, hitems⟩ := Expr.every_array.mp hpl
  obtain ⟨hl₁, hao⟩ := orFresh_leads ha hr hn.1.item
  obtain ⟨hσ₂, heq⟩ := Run.solvedBy_emit.mp hσ
  rw [heq, Ty.subst_array]
  exact .array (orFresh_fills ha hn.1.item)
    (inferAll_sound ih hes hl₁.wf (he.mono hl₁.size) hao hitems hσ₂ hΓ)

theorem seq_sound {effect value : Expr} {ty : Ty} (ihe : Sound effect) (ihv : Sound value) :
    Sound (.seq effect value ty) := by
  intro env x run run' d h hr he hx hpl σ Γ hσ hΓ
  obtain ⟨f, run₁, v, hs, rfl⟩ := seq_run (infer_leads .all effect) (infer_leads .all value) h hr he hx
    (Expr.Plain.over hpl)
  obtain ⟨_, heffect, hvalue⟩ := Expr.every_seq.mp hpl
  exact .seq (ihe hs.effected hs.opened.wf (he.mono hs.opened.size) (over_fresh run) heffect
      (hs.final.solved σ hσ) hΓ)
    (ihv hs.continued hs.before.wf (he.mono hs.before.size) (hx.mono hs.before.size) hvalue hσ hΓ)

/-- Inference is sound for every solution of what it leaves behind. -/
theorem infer_sound (e : Expr) : Sound e := by
  induction e with
  | absent => exact fun h => absurd h not_infer_absent
  | other kind => exact fun h => absurd h not_infer_other
  | int value ty =>
    intro env x run run' d h _ _ _ _ σ Γ hσ _
    obtain ⟨rfl, rfl⟩ := infer_int.mp h
    rw [(Run.solvedBy_emit.mp hσ).2]
    exact .int
  | str value ty =>
    intro env x run run' d h _ _ _ _ σ Γ hσ _
    obtain ⟨rfl, rfl⟩ := infer_str.mp h
    rw [(Run.solvedBy_emit.mp hσ).2]
    exact .str
  | var name typeArgs ty => exact var_sound name typeArgs ty
  | func params result body ty ih => exact func_sound ih
  | call callee args ty ihf iha => exact call_sound ihf iha
  | letIn name annot value body ty ihv ihb =>
    cases hab : body.isAbsent with
    | true =>
      obtain rfl := Expr.isAbsent_iff.mp hab
      exact let_alone_sound ihv
    | false => exact let_sound hab ihv ihb
  | group bs body ty ihf ihb => exact group_sound ihf ihb
  | array item items ty ih => exact array_sound ih
  | seq effect value ty ihe ihv => exact seq_sound ihe ihv
  | block items ty ih =>
    intro env x run run' d h hr he hx hpl σ Γ hσ hΓ
    obtain ⟨hne, es, hes, rfl⟩ := infer_block.mp h
    exact .block (inferItems_sound ih hne hes hr he hx (Expr.every_block.mp hpl).2 hσ hΓ)

end

/-! ## Programs -/

theorem Env.under_closed {env : Env} (h : env.All fun g => g.body.vars = []) (σ : Int → Ty) :
    env.Rel (fun _ => Scheme.Under σ) env := by
  intro x
  cases hx : env.lookup? x with
  | none => exact .none
  | some g =>
    cases g with
    | none => exact .some .none
    | some g => exact .some (.some (.closed (h x g hx) σ))

/-- Inference is sound: in an environment without variables, every type that is found for a program
without generic annotations and without variables is derivable. -/
theorem infer_hasType {env : Env} {e : Expr} {t : Ty} (henv : env.All fun g => g.body.vars = [])
    (hgroups : e.Every fun n => n.generics = [])
    (hgiven : e.Every fun n => ∀ u ∈ n.annotations ++ n.typeArguments, u.vars = [])
    (h : (Context.new.infer e (some env)).1.result = .ok t) : HasType env e t := by
  obtain ⟨_, typed, run, h⟩ := infer_result.mp h
  have hplain : e.Plain .all := fun n hn => by
    have hclosed := hgiven n hn
    refine ⟨⟨fun u hu _ => .of_closed (hclosed u (List.mem_append_left _ hu)), fun u hu =>
      .of_closed (hclosed u (List.mem_append_right _ hu)), fun g hg => ?_⟩, hgroups n hn⟩
    rw [hgroups n hn] at hg
    cases hg
  have hover : env.Over .all 0 := henv.imp fun g hg => ⟨fun h => absurd trivial h, by simp [hg],
    fun _ _ => .inl trivial⟩
  obtain ⟨typed, run₁, hrun, heq⟩ := root_run h hover hplain.over
  cases heq
  exact infer_sound e hrun.inferred hrun.opened hrun.scope hrun.expected hplain hrun.solvedBy
    (Env.under_closed henv _)

/-- A group whose function gets a generic type, from a generic type of the environment, and is used at
two types by the items of a block. -/
theorem infer_hasType_block :
    HasType (Env.empty.declareGeneric "id" ["T"] (.function [.con "T" []] (.con "T" [])))
      (.group [.fn "f" none [⟨"x", .absent⟩] .absent
          (.call (.var "id" none .absent) [.var "x" none .absent] .absent) .absent]
        (.block [.letIn "y" .absent (.call (.var "f" none .absent) [.int 1 .absent] .absent) .absent
            .absent,
          .call (.var "f" none .absent) [.array .absent [.var "y" none .absent] .absent] .absent]
          .absent) .absent)
      (.array .int) :=
  infer_hasType (Env.All.empty.extend (by rfl))
    (by simp [Expr.generics, Binding.func?, Binding.scheme])
    (by simp [Expr.annotations, Expr.typeArguments, Binding.func?])
    (by decide +kernel)

end Polytype
