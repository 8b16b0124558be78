import Mathlib
import Polytype.Proofs.Infer.Checking
import Polytype.Proofs.Typing.Completeness

/-!
# What inference admits

The annotations that inference makes are no restriction (`infer_admits`): the annotated tree checks
against no more types than the program has. Where the tree is that of a solution `ρ`, every other
solution of what was there before, under which the tree checks, extends to a solution of the run.

The extended solution takes the variables that a run opens to the types that `ρ` gives them in the tree
(`exists_spliced`), and those of uses and calls to the types in the derivation.
-/

namespace Polytype

open InferM

/-! ## Solutions that share the newer variables -/

/-- The assignment that is `σ` on the first variables and `ρ` on all others. -/
def splice (n : Nat) (σ ρ : Int → Ty) (i : Int) : Ty := if 0 ≤ i ∧ i < n then σ i else ρ i

theorem agree_splice (n : Nat) (σ ρ : Int → Ty) : Agree n σ (splice n σ ρ) := fun _ h0 hi =>
  (if_pos ⟨h0, hi⟩).symm

theorem subst_splice {n : Nat} {t : Ty} (h : ∀ i ∈ t.vars, (n : Int) ≤ i) (σ ρ : Int → Ty) :
    t.subst (splice n σ ρ) = t.subst ρ := by
  refine Ty.subst_congr fun i hi => if_neg ?_
  have := h i hi
  omega

theorem Ty.Over.toWhole {t : Ty} {n : Nat} (h : t.Over .ungenerated n) : t.Over .whole n :=
  ⟨h.whole, h.vars, fun _ _ => trivial⟩

theorem Run.WF.toWhole {run : Run} (h : run.WF .ungenerated) : run.WF .whole :=
  ⟨h.acyclic, fun i t hb => (h.store i t hb).toWhole, fun c hc =>
    ⟨(h.queue c hc).1.toWhole, (h.queue c hc).2.toWhole⟩⟩

theorem Agree.under {V : Vocabulary} {n : Nat} {σ τ : Int → Ty} {env Γ : Env} (h : Agree n σ τ)
    (hv : ¬ V.strays) (he : env.Over V n) (hΓ : env.Rel (fun _ => Scheme.Under σ) Γ) :
    env.Rel (fun _ => Scheme.Under τ) Γ :=
  hΓ.imp fun x g _ hx hu => hu.congr (Agree.vars (V := V.and g.params) h hv (he x g hx))

section

variable {run run' : Run} {env Γ : Env} {σ ρ : Int → Ty}

/-- A run has got more variables, and no equations. -/
structure Run.Opens (run run' : Run) : Prop where
  size : run.store.size ≤ run'.store.size
  solved : ∀ σ, run.SolvedBy σ → run'.SolvedBy σ

theorem Run.Opens.refl (run : Run) : run.Opens run := ⟨le_rfl, fun _ h => h⟩

theorem Run.Opens.trans {run₁ : Run} (h : run.Opens run₁) (h' : run₁.Opens run') : run.Opens run' :=
  ⟨h.size.trans h'.size, fun σ hσ => h'.solved σ (h.solved σ hσ)⟩

theorem Run.Opens.alloc (run : Run) (n : Nat) : run.Opens (run.alloc n) :=
  ⟨by rw [Run.size_alloc]; omega, fun _ => (Run.solvedBy_alloc n).mpr⟩

/-- A solution extends to a run that has got more variables. In types of the new variables it can be like
any other assignment. -/
theorem exists_spliced (h : run.Opens run') (hr : run.WF .ungenerated)
    (he : env.Over .ungenerated run.store.size) (hσ : run.SolvedBy σ)
    (hΓ : env.Rel (fun _ => Scheme.Under σ) Γ) (ρ : Int → Ty) :
    ∃ τ, run'.SolvedBy τ ∧ Agree run.store.size σ τ ∧ env.Rel (fun _ => Scheme.Under τ) Γ ∧
      ∀ {t : Ty}, (∀ i ∈ t.vars, (run.store.size : Int) ≤ i) → t.subst τ = t.subst ρ := by
  have hagree := agree_splice run.store.size σ ρ
  exact ⟨_, h.solved _ (hagree.solvedBy hr.toWhole hσ), hagree, hagree.under not_false he hΓ,
    fun hnew => subst_splice hnew σ ρ⟩

theorem orFresh_opens {a t : Ty} (h : (orFresh a).Yields run t run')
    (ha : a ≠ .absent → a.Over .ungenerated 0) :
    run.Opens run' ∧ ∀ i ∈ t.vars, (run.store.size : Int) ≤ i := by
  rcases yields_orFresh.mp h with ⟨_, rfl, rfl⟩ | ⟨hne, rfl, rfl⟩
  · exact ⟨.alloc run 1, by simp⟩
  · exact ⟨.refl run', by simp [(ha hne).closed not_false]⟩

theorem openParams_opens {ps qs : List Param} {inner : Env}
    (h : (openParams env ps).Yields run (qs, inner) run')
    (hp : ∀ p ∈ ps, p.ty ≠ .absent → p.ty.Over .ungenerated 0) :
    run.Opens run' ∧ ∀ q ∈ qs, ∀ i ∈ q.ty.vars, (run.store.size : Int) ≤ i := by
  induction ps generalizing env run qs inner with
  | nil =>
    obtain ⟨⟨⟩, rfl⟩ := openParams_nil.mp h
    exact ⟨.refl run', by simp⟩
  | cons p ps ih =>
    rw [List.forall_mem_cons] at hp
    obtain ⟨t, run₁, qs, inner, ht, hrest, ⟨⟩⟩ := openParams_cons.mp h
    obtain ⟨ho, hnew⟩ := orFresh_opens ht hp.1
    obtain ⟨ho', hnew'⟩ := ih hrest hp.2
    refine ⟨ho.trans ho', List.forall_mem_cons.mpr ⟨hnew, fun q hq i hi => ?_⟩⟩
    have := hnew' q hq i hi
    have := ho.size
    omega

theorem placeholders_opens {bs : List Binding} {ps : List Scheme}
    (h : (placeholders bs).Yields run ps run') (hb : ∀ b ∈ bs, b.scheme = none) :
    run.Opens run' ∧ ∀ p ∈ ps, ∀ i ∈ p.body.vars, (run.store.size : Int) ≤ i := by
  induction bs generalizing run ps with
  | nil =>
    obtain ⟨rfl, rfl⟩ := placeholders_nil.mp h
    exact ⟨.refl run', by simp⟩
  | cons b bs ih =>
    rw [List.forall_mem_cons] at hb
    obtain ⟨qs, hrest, rfl⟩ := (placeholders_open hb.1).mp h
    have ho := Run.Opens.alloc run 1
    obtain ⟨ho', hnew⟩ := ih hrest hb.2
    refine ⟨ho.trans ho', List.forall_mem_cons.mpr ⟨by simp [Scheme.mono], fun p hp i hi => ?_⟩⟩
    have := hnew p hp i hi
    have := ho.size
    omega

/-! ## Lists -/

/-- A solution `ρ` of what inference leaves behind is put into the tree. If a solution of what was there
before takes the expected type to a type that this tree checks against, then it extends to what
inference leaves behind. -/
def Admits (e : Expr) : Prop :=
  ∀ {env : Env} {x : Ty} {run run' : Run} {d : Expr}, (infer env x e).Yields run d run' →
    run.WF .ungenerated → env.Over .ungenerated run.store.size →
    x.Over .ungenerated run.store.size → e.Plain .ungenerated → e.Unapplied →
    ∀ {ρ σ : Int → Ty} {Γ : Env}, run'.SolvedBy ρ → Suits ρ d → env.Rel (fun _ => Scheme.Under ρ) Γ →
      run.SolvedBy σ → env.Rel (fun _ => Scheme.Under σ) Γ →
      Checks Γ (d.mapTypes (Ty.subst ρ)) (x.subst σ) →
      ∃ τ, run'.SolvedBy τ ∧ Agree run.store.size σ τ

/-- What is inferred for a new variable admits every type of the annotated tree for it. -/
theorem Admits.fresh {e d : Expr} {u : Ty} (ih : Admits e)
    (h : (infer env (.var run.store.size) e).Yields (run.alloc 1) d run') (hr : run.WF .ungenerated)
    (he : env.Over .ungenerated run.store.size) (hpl : e.Plain .ungenerated) (hna : e.Unapplied)
    (hρ : run'.SolvedBy ρ) (hsuits : Suits ρ d) (hΓρ : env.Rel (fun _ => Scheme.Under ρ) Γ)
    (hσ : run.SolvedBy σ) (hΓ : env.Rel (fun _ => Scheme.Under σ) Γ)
    (hc : Checks Γ (d.mapTypes (Ty.subst ρ)) u) :
    ∃ τ, run'.SolvedBy τ ∧ Agree run.store.size σ τ ∧ (Ty.var run.store.size).subst τ = u := by
  have ha := Run.Leads.alloc hr 1
  have hx : (Ty.var run.store.size).Over .ungenerated _ := over_fresh run
  obtain ⟨τ₀, hτ₀, hagree₀, hu⟩ := fresh_complete hr.toWhole hσ u
  obtain ⟨τ, hτ, hagree⟩ := ih h ha.wf (he.mono ha.size) hx hpl hna hρ hsuits hΓρ hτ₀
    (hagree₀.under not_false he hΓ) (by rw [hu]; exact hc)
  exact ⟨τ, hτ, hagree₀.trans hagree ha.size, by rw [← hagree.subst hx.toWhole, hu]⟩

/-- What is inferred for an annotation admits the type that the annotation has in the tree. -/
theorem Admits.annotated {e d : Expr} {annot a : Ty} {run₁ : Run} (ih : Admits e)
    (ha : (orFresh annot).Yields run a run₁) (h : (infer env a e).Yields run₁ d run')
    (hr : run.WF .ungenerated) (he : env.Over .ungenerated run.store.size)
    (hannot : annot ≠ .absent → annot.Over .ungenerated 0) (hpl : e.Plain .ungenerated)
    (hna : e.Unapplied) (hρ : run'.SolvedBy ρ) (hsuits : Suits ρ d)
    (hΓρ : env.Rel (fun _ => Scheme.Under ρ) Γ) (hσ : run.SolvedBy σ)
    (hΓ : env.Rel (fun _ => Scheme.Under σ) Γ)
    (hc : Checks Γ (d.mapTypes (Ty.subst ρ)) (a.subst ρ)) :
    ∃ τ, run'.SolvedBy τ ∧ Agree run.store.size σ τ ∧ a.subst τ = a.subst ρ := by
  obtain ⟨hl, hao⟩ := orFresh_leads ha hr hannot
  obtain ⟨hopen, hnew⟩ := orFresh_opens ha hannot
  obtain ⟨σ₁, hσ₁, hagree₁, hΓ₁, hsame⟩ := exists_spliced hopen hr he hσ hΓ ρ
  have has : a.subst σ₁ = a.subst ρ := hsame hnew
  obtain ⟨τ, hτ, hagree⟩ := ih h hl.wf (he.mono hl.size) hao hpl hna hρ hsuits hΓρ hσ₁ hΓ₁
    (by rw [has]; exact hc)
  exact ⟨τ, hτ, hagree₁.trans hagree hl.size, by rw [← hagree.subst hao.toWhole, has]⟩

theorem inferAll_admits {es ds : List Expr} {x : Ty} (ih : ∀ e ∈ es, Admits e)
    (h : (inferAll env x es).Yields run ds run') (hr : run.WF .ungenerated)
    (he : env.Over .ungenerated run.store.size) (hx : x.Over .ungenerated run.store.size)
    (hes : ∀ e ∈ es, e.Plain .ungenerated) (hna : ∀ e ∈ es, e.Unapplied) (hρ : run'.SolvedBy ρ)
    (hds : ∀ d ∈ ds, Suits ρ d) (hΓρ : env.Rel (fun _ => Scheme.Under ρ) Γ) (hσ : run.SolvedBy σ)
    (hΓ : env.Rel (fun _ => Scheme.Under σ) Γ)
    (hc : ∀ d ∈ Expr.mapTypesList (Ty.subst ρ) ds, Checks Γ d (x.subst σ)) :
    ∃ τ, run'.SolvedBy τ ∧ Agree run.store.size σ τ := by
  induction es generalizing run ds σ with
  | nil =>
    obtain ⟨_, rfl⟩ := inferAll_nil.mp h
    exact ⟨σ, hσ, .refl _ _⟩
  | cons e es ihs =>
    rw [List.forall_mem_cons] at ih hes hna
    obtain ⟨d, run₁, ds, hd, hrest, rfl⟩ := inferAll_cons.mp h
    rw [Expr.mapTypesList, List.forall_mem_cons] at hc
    rw [List.forall_mem_cons] at hds
    have hl := (infer_leads _ e hd hr he hx hes.1.over).1
    have hl' := inferAll_leads (fun f _ => infer_leads _ f) hrest hl.wf (he.mono hl.size)
      (hx.mono hl.size) fun f hf => (hes.2 f hf).over
    obtain ⟨τ₁, hτ₁, hagree⟩ := ih.1 hd hr he hx hes.1 hna.1 (hl'.solved ρ hρ) hds.1 hΓρ hσ hΓ hc.1
    obtain ⟨τ, hτ, hagree'⟩ := ihs ih.2 hrest hl.wf (he.mono hl.size) (hx.mono hl.size) hes.2 hna.2
      hds.2 hτ₁ (hagree.under not_false he hΓ) (by rw [← hagree.subst hx.toWhole]; exact hc.2)
    exact ⟨τ, hτ, hagree.trans hagree' hl.size⟩

theorem inferEach_length {es ds : List Expr} {ts : List Ty}
    (h : (inferEach env ts es).Yields run ds run') (hlen : ts.length = es.length) :
    ds.length = es.length := by
  induction es generalizing run ts ds with
  | nil =>
    obtain ⟨rfl, _⟩ := inferEach_nil.mp h
    rfl
  | cons e es ih =>
    cases ts with
    | nil => cases hlen
    | cons t ts =>
      obtain ⟨d, run₁, ds, _, hrest, rfl⟩ := inferEach_cons.mp h
      rw [List.length_cons, List.length_cons, ih hrest (Nat.succ.inj hlen)]

theorem inferEach_admits {es ds : List Expr} {ts : List Ty} (ih : ∀ e ∈ es, Admits e)
    (h : (inferEach env ts es).Yields run ds run') (hlen : ts.length = es.length)
    (hr : run.WF .ungenerated) (he : env.Over .ungenerated run.store.size)
    (ht : ∀ t ∈ ts, t.Over .ungenerated run.store.size) (hes : ∀ e ∈ es, e.Plain .ungenerated)
    (hna : ∀ e ∈ es, e.Unapplied) (hρ : run'.SolvedBy ρ) (hds : ∀ d ∈ ds, Suits ρ d)
    (hΓρ : env.Rel (fun _ => Scheme.Under ρ) Γ) (hσ : run.SolvedBy σ)
    (hΓ : env.Rel (fun _ => Scheme.Under σ) Γ)
    (hc : ChecksEach Γ (Expr.mapTypesList (Ty.subst ρ) ds) (ts.map (Ty.subst σ))) :
    ∃ τ, run'.SolvedBy τ ∧ Agree run.store.size σ τ := by
  induction es generalizing run ts ds σ with
  | nil =>
    obtain ⟨_, rfl⟩ := inferEach_nil.mp h
    exact ⟨σ, hσ, .refl _ _⟩
  | cons e es ihs =>
    cases ts with
    | nil => cases hlen
    | cons t ts =>
      rw [List.forall_mem_cons] at ih hes hna ht
      obtain ⟨d, run₁, ds, hd, hrest, rfl⟩ := inferEach_cons.mp h
      rw [List.forall_mem_cons] at hds
      have hl := (infer_leads _ e hd hr he ht.1 hes.1.over).1
      have ht' : ∀ u ∈ ts, u.Over .ungenerated _ := fun u hu => (ht.2 u hu).mono hl.size
      have hl' := inferEach_leads (fun f _ => infer_leads _ f) hrest (Nat.succ.inj hlen) hl.wf
        (he.mono hl.size) ht' fun f hf => (hes.2 f hf).over
      rw [Expr.mapTypesList, List.map_cons] at hc
      cases hc with
      | cons hce hces =>
        obtain ⟨τ₁, hτ₁, hagree⟩ := ih.1 hd hr he ht.1 hes.1 hna.1 (hl'.solved ρ hρ) hds.1 hΓρ hσ hΓ
          hce
        rw [hagree.map_subst fun u hu => (ht.2 u hu).toWhole] at hces
        obtain ⟨τ, hτ, hagree'⟩ := ihs ih.2 hrest (Nat.succ.inj hlen) hl.wf (he.mono hl.size) ht'
          hes.2 hna.2 hds.2 hτ₁ (hagree.under not_false he hΓ) hces
        exact ⟨τ, hτ, hagree.trans hagree' hl.size⟩

/-- What an item binds has in an admitted solution the type that it is annotated with. -/
theorem after_admits {x : Ty} {e d : Expr} (h : (infer env x e).Yields run d run')
    (hσ : run'.SolvedBy σ) (hc : Checks Γ (d.mapTypes (Ty.subst ρ)) (x.subst σ)) {Δ : Env}
    (hΓ : Δ.Rel (fun _ => Scheme.Under σ) Γ) :
    (Δ.after d).Rel (fun _ => Scheme.Under σ) (Γ.after (d.mapTypes (Ty.subst ρ))) := by
  cases d with
  | letIn name a v body ty =>
    cases body with
    | absent =>
      obtain ⟨annot, value, ty', rfl⟩ := Expr.boundAfter?_eq_some (infer_boundAfter h).symm
      obtain ⟨_, _, _, _, _, _, ⟨⟩, rfl⟩ := infer_let_alone.mp h
      -- the annotation is the type that is expected of the item
      have heq : a.subst ρ = a.subst σ := by
        rw [← (Run.solvedBy_emit.mp hσ).2]
        rw [Expr.mapTypes, mapPresent_subst] at hc
        generalize x.subst σ = t at hc
        cases hc with
        | letIn hab => cases hab
        | letAlone _ _ => rfl
      show (Δ.declare name a).Rel _ (Γ.declare name (Expr.mapPresent (Ty.subst ρ) a))
      rw [mapPresent_subst, heq]
      exact declare_under hΓ name a
    | _ => exact hΓ
  | _ => exact hΓ

theorem inferItems_ne_nil {e : Expr} {es ds : List Expr} {x : Ty}
    (h : (inferItems env x (e :: es)).Yields run ds run') : ds ≠ [] := by
  cases es with
  | nil =>
    obtain ⟨d, _, rfl⟩ := inferItems_last.mp h
    simp
  | cons f es =>
    obtain ⟨d, _, ds, _, _, rfl⟩ := inferItems_cons.mp h
    simp

theorem inferItems_admits {es ds : List Expr} {x : Ty} (ih : ∀ e ∈ es, Admits e) (hne : es ≠ [])
    (h : (inferItems env x es).Yields run ds run') (hr : run.WF .ungenerated)
    (he : env.Over .ungenerated run.store.size) (hx : x.Over .ungenerated run.store.size)
    (hes : ∀ e ∈ es, e.Plain .ungenerated) (hna : ∀ e ∈ es, e.Unapplied) (hρ : run'.SolvedBy ρ)
    (hds : ∀ d ∈ ds, Suits ρ d) (hΓρ : env.Rel (fun _ => Scheme.Under ρ) Γ) (hσ : run.SolvedBy σ)
    (hΓ : env.Rel (fun _ => Scheme.Under σ) Γ)
    (hc : ChecksItems Γ (Expr.mapTypesList (Ty.subst ρ) ds) (x.subst σ)) :
    ∃ τ, run'.SolvedBy τ ∧ Agree run.store.size σ τ := by
  induction es generalizing env Γ run ds σ with
  | nil => exact absurd rfl hne
  | cons e es ihs =>
    rw [List.forall_mem_cons] at ih hes hna
    cases es with
    | nil =>
      obtain ⟨d, hd, rfl⟩ := inferItems_last.mp h
      cases hc with
      | last hc =>
        exact ih.1 hd hr he hx hes.1 hna.1 hρ (hds d List.mem_cons_self) hΓρ hσ hΓ hc
    | cons f es =>
      obtain ⟨d, run₁, ds, hd, hrest, rfl⟩ := inferItems_cons.mp h
      rw [List.forall_mem_cons] at hds
      have ha := Run.Leads.alloc hr 1
      have hxe : (Ty.var run.store.size).Over .ungenerated _ := over_fresh run
      obtain ⟨hl, hafter⟩ := infer_leads _ e hd ha.wf (he.mono ha.size) hxe hes.1.over
      have hal := ha.trans hl
      have he' := hafter env (he.mono hal.size)
      have hl' := inferItems_leads (fun g _ => infer_leads _ g) (by simp) hrest hl.wf he'
        (hx.mono hal.size) fun g hg => (hes.2 g hg).over
      cases ds with
      | nil => exact absurd rfl (inferItems_ne_nil hrest)
      | cons d' ds =>
        cases hc with
        | @cons _ _ _ _ u _ hce hces =>
          obtain ⟨τ₁, hτ₁, hagree, hu⟩ := Admits.fresh ih.1 hd hr he hes.1 hna.1 (hl'.solved ρ hρ)
            hds.1 hΓρ hσ hΓ hce
          obtain ⟨τ, hτ, hagree'⟩ := ihs ih.2 (by simp) hrest hl.wf he' (hx.mono hal.size) hes.2 hna.2
            hds.2 (after_mapTypes hΓρ d) hτ₁
            (after_admits hd hτ₁ (by rw [hu]; exact hce) (hagree.under not_false he hΓ))
            (by rw [← hagree.subst hx.toWhole]; exact hces)
          exact ⟨τ, hτ, hagree.trans hagree' hal.size⟩

/-! ## Groups -/

theorem inferBindings_admits {bs ts : List Binding} {ps : List Scheme}
    (ih : ∀ b ∈ bs, ∀ f, b.func? = some f → Admits f)
    (h : (inferBindings env ps bs).Yields run ts run') (hlen : ps.length = bs.length)
    (hr : run.WF .ungenerated) (he : env.Over .ungenerated run.store.size)
    (hp : ∀ p ∈ ps, p.body.Over .ungenerated run.store.size)
    (hbs : ∀ b ∈ bs, ∀ f, b.func? = some f → f.Plain .ungenerated)
    (hna : ∀ b ∈ bs, ∀ f, b.func? = some f → f.Unapplied) (hρ : run'.SolvedBy ρ)
    (hts : ∀ t ∈ ts, ∀ f, t.func? = some f → Suits ρ f)
    (hΓρ : env.Rel (fun _ => Scheme.Under ρ) Γ) (hσ : run.SolvedBy σ)
    (hΓ : env.Rel (fun _ => Scheme.Under σ) Γ) (hps : ∀ p ∈ ps, p.body.subst σ = p.body.subst ρ)
    (hfuns : List.Forall₂ (FunctionChecks env run') ps ts) :
    ∃ τ, run'.SolvedBy τ ∧ Agree run.store.size σ τ := by
  induction bs generalizing run ps ts σ with
  | nil =>
    obtain ⟨_, rfl⟩ := inferBindings_nil.mp h
    exact ⟨σ, hσ, .refl _ _⟩
  | cons b bs ihs =>
    cases ps with
    | nil => cases hlen
    | cons p ps =>
      rw [List.forall_mem_cons] at ih hbs hna hp hps
      obtain ⟨d, run₁, ds, hd, hds, rfl⟩ := inferBindings_cons.mp h
      obtain ⟨name, g, params, result, body, ty, qs, r, c, rfl, hf, rfl⟩ :=
        inferBinding_yields.mp hd
      rw [List.forall_mem_cons] at hts
      have hplain := hbs.1 _ rfl
      have hl := (infer_leads _ _ hf hr he hp.1 hplain.over).1
      have hp' : ∀ q ∈ ps, q.body.Over .ungenerated _ := fun q hq => (hp.2 q hq).mono hl.size
      have hl' := inferBindings_leads (fun b _ f _ => infer_leads _ f) hds (Nat.succ.inj hlen)
        hl.wf (he.mono hl.size) hp' fun b hb f hf => (hbs.2 b hb f hf).over
      cases hfuns with
      | cons hfun hfuns =>
        obtain ⟨_, ⟨⟩, hcheck⟩ := hfun
        have hc := hcheck hρ (hts.1 _ rfl) hΓρ
        rw [← hps.1] at hc
        obtain ⟨τ₁, hτ₁, hagree⟩ := ih.1 _ rfl hf hr he hp.1 hplain (hna.1 _ rfl) (hl'.solved ρ hρ)
          (hts.1 _ rfl) hΓρ hσ hΓ hc
        obtain ⟨τ, hτ, hagree'⟩ := ihs ih.2 hds (Nat.succ.inj hlen) hl.wf (he.mono hl.size) hp' hbs.2
          hna.2 hts.2 hτ₁ (hagree.under not_false he hΓ)
          (fun q hq => by rw [← hagree.subst (hp.2 q hq).toWhole, hps.2 q hq]) hfuns
        exact ⟨τ, hτ, hagree.trans hagree' hl.size⟩

variable {s : Store}

theorem Generalized.suits {p g : Scheme} {own : Option Scheme} {t d : Binding} {f : Expr}
    (h : Generalized s env p own t g d) (hd : ∀ f, d.func? = some f → Suits ρ f)
    (hf : t.func? = some f) : Suits ρ f := by
  cases h with
  | given =>
    cases hf
    exact hd _ rfl
  | closed _ =>
    cases hf
    exact hd _ rfl
  | @named _ store _ _ params result body ty _ =>
    cases hf
    have hmapped := hd _ rfl
    rw [← Expr.mapTypes] at hmapped
    exact hmapped.of_mapTypes

theorem GeneralizedAll.suits {bs ts ds : List Binding} {ps gs : List Scheme}
    (h : GeneralizedAll s env bs ps ts gs ds) (hd : ∀ d ∈ ds, ∀ f, d.func? = some f → Suits ρ f) :
    ∀ t ∈ ts, ∀ f, t.func? = some f → Suits ρ f := by
  induction h with
  | nil => simp
  | cons hg _ ih =>
    rw [List.forall_mem_cons] at hd ⊢
    exact ⟨fun f hf => hg.suits hd.1 hf, ih hd.2⟩

theorem GeneralizedAll.schemes {bs ts ds : List Binding} {ps gs : List Scheme}
    (h : GeneralizedAll s env bs ps ts gs ds) : ds.map (·.scheme) = gs.map some := by
  induction h with
  | nil => rfl
  | cons hg _ ih => rw [List.map_cons, List.map_cons, ih, hg.recorded.2]

theorem Closes.mem_vars {t : Ty} {scope : Expr} {g : Scheme} {store? : Option Store}
    (h : Closes s env t scope g store?) {i : Int} (hi : i ∈ g.body.vars) :
    i ∈ (s.resolve t).vars := by
  rw [h.body] at hi
  obtain ⟨j, hj, hi⟩ := Ty.mem_vars_subst.mp hi
  rcases named_cases (s.generalizable env t) g.params j with heq | ⟨n, _, heq⟩
  · rw [heq, Ty.vars_var, List.mem_singleton] at hi
    exact hi ▸ hj
  · simp [heq] at hi

/-- Solutions that agree on the types of functions inside their group agree on what stays free in their
generic types. -/
theorem eq_of_closes {τ : Int → Ty} {ps gs : List Scheme}
    (h : List.Forall₂ (fun p g => ∃ scope store?, Closes s env p.body scope g store?) ps gs)
    (hσ : s.SolvedBy σ) (hτ : s.SolvedBy τ) (hps : ∀ p ∈ ps, p.body.subst σ = p.body.subst τ) :
    ∀ g ∈ gs, ∀ i ∈ g.body.vars, σ i = τ i := by
  induction h with
  | nil => simp
  | @cons p g ps gs hc _ ih =>
    obtain ⟨_, _, hc⟩ := hc
    rw [List.forall_mem_cons] at hps
    refine List.forall_mem_cons.mpr ⟨fun i hi => ?_, ih hps.2⟩
    refine Ty.eq_of_subst_eq (t := s.resolve p.body) ?_ i (hc.mem_vars hi)
    rw [Store.subst_resolve hσ, Store.subst_resolve hτ, hps.1]

/-- A group admits what its functions and its body admit. -/
theorem group_admits {bs : List Binding} {body d : Expr} {ty x : Ty}
    (ihf : ∀ b ∈ bs, ∀ f, b.func? = some f → Admits f) (ihb : Admits body)
    (h : (infer env x (.group bs body ty)).Yields run d run') (hr : run.WF .ungenerated)
    (he : env.Over .ungenerated run.store.size) (hx : x.Over .ungenerated run.store.size)
    (hpl : (Expr.group bs body ty).Plain .ungenerated) (hna : (Expr.group bs body ty).Unapplied)
    (hρ : run'.SolvedBy ρ) (hsuits : Suits ρ d) (hΓρ : env.Rel (fun _ => Scheme.Under ρ) Γ)
    (hσ : run.SolvedBy σ) (hΓ : env.Rel (fun _ => Scheme.Under σ) Γ)
    (hc : Checks Γ (d.mapTypes (Ty.subst ρ)) (x.subst σ)) :
    ∃ τ, run'.SolvedBy τ ∧ Agree run.store.size σ τ := by
  obtain ⟨hn, hfuncs, hbody⟩ := Expr.every_group.mp hpl
  obtain ⟨_, hnaf, hnab⟩ := Expr.every_group.mp hna
  have hnone := Expr.scheme_eq_none hn.2
  obtain ⟨ps, run₁, ts, run₂, run₃, gs, ds, b, hg, rfl⟩ :=
    group_run (fun _ _ f _ => infer_leads _ f) (infer_leads _ body) h hr he hx (Expr.Plain.over hpl)
  obtain ⟨hsf, hsb⟩ := hsuits.group
  have hρ₃ := hg.final.solved ρ hρ
  have hclosed := hg.generalized.closes hg.settled.wf.acyclic hnone
  -- the placeholders take the types that the functions have in the tree
  obtain ⟨hopens, hnew⟩ := placeholders_opens hg.placed hnone
  have hopens : run.Opens run₁ := ⟨hopens.size, fun σ hσ => hopens.solved σ ⟨hσ.store, hσ.queue⟩⟩
  obtain ⟨σ₁, hσ₁, hagree₁, hΓ₁, hsame⟩ := exists_spliced hopens hr he hσ hΓ ρ
  have hps : ∀ p ∈ ps, p.body.subst σ₁ = p.body.subst ρ := fun p hp => hsame (hnew p hp)
  have hmono := placeholders_mono hg.placed hnone
  have hin : (env.extendGroup bs ps).Rel (fun _ => Scheme.Under σ₁)
      (Γ.extendGroup bs ((ps.map fun p => p.body.subst ρ).map .mono)) := by
    rw [← List.map_congr_left hps]
    exact hΓ₁.extendGroup rfl (forall₂_under_mono hmono) fun _ _ _ _ hu => hu
  have hfuns := inferBindings_checks (fun _ _ f _ => infer_checks f) hg.inferred hg.length
    hg.opened.wf hg.inside hg.bodies hfuncs hnaf
  obtain ⟨τ₂, hτ₂, hagree₂⟩ := inferBindings_admits ihf hg.inferred hg.length hg.opened.wf hg.inside
    hg.bodies hfuncs hnaf ((hg.solved ρ).mp hρ₃)
    (hg.generalized.suits hsf)
    (hΓρ.extendGroup rfl (forall₂_under_mono hmono) fun _ _ _ _ hu => hu) hσ₁ hin hps hfuns
  have hτ₃ := (hg.solved τ₂).mpr hτ₂
  have hagree := hagree₁.trans hagree₂ hg.opened.size
  -- so the generic types that the body is inferred with keep their free variables
  have hkept := eq_of_closes hclosed hρ₃.store hτ₃.store fun p hp => by
    rw [← hagree₂.subst (hg.bodies p hp).toWhole, hps p hp]
  have hunder := hg.generalized.under hg.settled.wf.acyclic hnone hsuits
  have hunder₂ : List.Forall₂ (Scheme.Under τ₂) gs (gs.map (Expr.mapScheme (Ty.subst ρ))) := by
    rw [List.forall₂_map_right_iff, List.forall₂_same] at hunder ⊢
    exact fun g hgs => (hunder g hgs).congr (hkept g hgs)
  rw [Expr.mapTypes] at hc
  generalize hxt : x.subst σ = t at hc
  cases hc with
  | @group _ _ gs' _ _ _ hcf hcb =>
    have hgs : gs' = gs.map (Expr.mapScheme (Ty.subst ρ)) := by
      refine List.map_injective_iff.mpr (Option.some_injective _) ?_
      have hschemes := congrArg (List.map (Option.map (Expr.mapScheme (Ty.subst ρ))))
        hg.generalized.schemes
      rw [List.map_map, List.map_map] at hschemes
      rw [← hcf.schemes, Expr.mapTypesBindings_eq, List.map_map, List.map_map]
      exact (List.map_congr_left fun d _ => d.scheme_mapTypes).trans hschemes
    rw [hgs, Env.extendGroup_congr (hg.names _), ← hxt, hagree.subst hx.toWhole] at hcb
    obtain ⟨τ, hτ, hagree'⟩ := ihb hg.continued hg.settled.wf hg.outside (hx.mono hg.before.size)
      hbody hnab hρ hsb (hΓρ.extendGroup rfl hunder fun _ _ _ _ hu => hu) hτ₃
      ((hagree.under not_false he hΓ).extendGroup rfl hunder₂ fun _ _ _ _ hu => hu) hcb
    exact ⟨τ, hτ, hagree.trans hagree' hg.before.size⟩

/-! ## Inference, case by case -/

theorem var_admits {name : String} {typeArgs : Option (List Ty)} {ty : Ty} :
    Admits (.var name typeArgs ty) := by
  intro env x run run' d h hr he hx _ hna ρ σ Γ _ _ _ hσ hΓ hc
  obtain rfl : typeArgs = none := Expr.every_var.mp hna
  obtain ⟨g, run₁, hg, _, hu, rfl, rfl⟩ := infer_var.mp h
  obtain rfl := unifyTypeArgs_nil.mp hu
  obtain ⟨g', hg', hunder⟩ := hΓ.lookup hg
  generalize hxt : x.subst σ = t at hc
  cases hc with
  | @var _ _ _ g'' args hg'' hlen =>
    cases hg'.symm.trans hg''
    have hl := hlen.trans hunder.length
    -- the variables of the instance take the arguments that it has in the derivation
    obtain ⟨τ, hτ, hagree, hmap⟩ := alloc_complete hr.toWhole hσ args
    rw [hl] at hτ hmap
    refine ⟨τ, Run.solvedBy_emit.mpr ⟨hτ, ?_⟩, hagree⟩
    have hv := hagree.vars not_false (he name g hg)
    rw [← hagree.subst hx.toWhole, hxt, Scheme.subst_apply, hmap, ← Scheme.applyUnder_congr hv,
      hunder.apply_eq args hl]

theorem func_admits {params : List Param} {result ty : Ty} {body : Expr} (ih : Admits body) :
    Admits (.func params result body ty) := by
  intro env x run run' d h hr he hx hpl hna ρ σ Γ hρ hsuits hΓρ hσ hΓ hc
  obtain ⟨ps, inner, run₁, r, run₂, b, run₃, hp, hres, hb, rfl, rfl⟩ := infer_func.mp h
  obtain ⟨hn, hbody⟩ := Expr.every_func.mp hpl
  have hclosed : ∀ p ∈ params, p.ty ≠ .absent → p.ty.Over .all 0 := fun p hp hne =>
    .of_closed ((hn.1.params p hp hne).closed not_false)
  obtain ⟨hl, hpo, hinner⟩ := openParams_leads hp hr he hn.1.params
  -- the parameters take the types that they have in the tree
  obtain ⟨hopen, hnew⟩ := openParams_opens hp hn.1.params
  obtain ⟨σ₁, hσ₁, hagree₁, hΓ₁, hsame⟩ := exists_spliced hopen hr he hσ hΓ ρ
  have hps : ∀ p ∈ ps, p.ty.subst σ₁ = p.ty.subst ρ := fun p hp => hsame (hnew p hp)
  have hparams : ps.map (Param.subst σ₁) = ps.map (Param.subst ρ) :=
    List.map_congr_left fun p hp => congrArg (Param.mk p.name) (hps p hp)
  have hscope := (openParams_typed hp hclosed hΓ₁).2
  rw [hparams] at hscope
  rw [Expr.mapTypes, mapParams_subst, mapPresent_subst] at hc
  generalize hxt : x.subst σ = t at hc
  cases hc with
  | func _ _ hcb =>
    obtain ⟨τ, hτ, hagree, hrs⟩ := ih.annotated hres hb hl.wf hinner hn.1.result hbody
      (Expr.every_func.mp hna).2 (Run.solvedBy_emit.mp hρ).1 hsuits.func
      (openParams_typed hp hclosed hΓρ).2 hσ₁ hscope hcb
    have hagree' := hagree₁.trans hagree hl.size
    refine ⟨τ, Run.solvedBy_emit.mpr ⟨hτ, ?_⟩, hagree'⟩
    rw [← hagree'.subst hx.toWhole, hxt, Ty.subst_function, hrs, List.map_map, List.map_map]
    refine congrArg (Ty.function · _) (List.map_congr_left fun p hp => ?_)
    show p.ty.subst ρ = p.ty.subst τ
    rw [← hagree.subst (hpo p hp).toWhole, hps p hp]

theorem call_admits {callee : Expr} {args : List Expr} {ty : Ty} (ihf : Admits callee)
    (iha : ∀ a ∈ args, Admits a) : Admits (.call callee args ty) := by
  intro env x run run' d h hr he hx hpl hna ρ σ Γ hρ hsuits hΓρ hσ hΓ hc
  obtain ⟨f, run₁, es, hcall, rfl⟩ := call_run (infer_leads _ callee) (fun a _ => infer_leads _ a) h hr he
    hx (Expr.Plain.over hpl)
  obtain ⟨_, hcallee, hargs⟩ := Expr.every_call.mp hpl
  obtain ⟨_, hnaf, hnaa⟩ := Expr.every_call.mp hna
  obtain ⟨hsf, hsa⟩ := hsuits.call
  rw [Expr.mapTypes] at hc
  generalize hxt : x.subst σ = t at hc
  cases hc with
  | @call _ _ _ ts _ _ hcf hca =>
    have hlen : ts.length = args.length := by
      rw [hca.length, Expr.mapTypesList_eq, List.length_map,
        inferEach_length hcall.given (length_freshList _ _)]
    -- the variables of a call take the types that its arguments have in the derivation
    obtain ⟨τ₀, hτ₀, hagree₀, hmap⟩ := alloc_complete hr.toWhole hσ ts
    rw [hlen] at hτ₀ hmap
    obtain ⟨τ₁, hτ₁, hagree₁⟩ := ihf hcall.called hcall.opened.wf (he.mono hcall.opened.size) hcall.wanted
      hcallee hnaf (hcall.final.solved ρ hρ) hsf hΓρ hτ₀ (hagree₀.under not_false he hΓ)
      (by rw [Ty.subst_function, hmap, ← hagree₀.subst hx.toWhole, hxt]; exact hcf)
    have hagree := hagree₀.trans hagree₁ hcall.opened.size
    rw [← hmap, hagree₁.map_subst (over_freshList run args.length)] at hca
    obtain ⟨τ, hτ, hagree'⟩ := inferEach_admits iha hcall.given (length_freshList _ _) hcall.before.wf
      (he.mono hcall.before.size) hcall.fresh hargs hnaa hρ hsa hΓρ hτ₁ (hagree.under not_false he hΓ) hca
    exact ⟨τ, hτ, hagree.trans hagree' hcall.before.size⟩

theorem let_alone_admits {name : String} {annot ty : Ty} {value : Expr} (ih : Admits value) :
    Admits (.letIn name annot value .absent ty) := by
  intro env x run run' d h hr he hx hpl hna ρ σ Γ hρ hsuits hΓρ hσ hΓ hc
  obtain ⟨a, run₁, v, run₂, ha, hv, rfl, rfl⟩ := infer_let_alone.mp h
  obtain ⟨hn, hvalue, _⟩ := Expr.every_letIn.mp hpl
  rw [Expr.mapTypes, mapPresent_subst] at hc
  generalize hxt : x.subst σ = t at hc
  cases hc with
  | letIn hab => cases hab
  | letAlone _ hcv =>
    obtain ⟨τ, hτ, hagree, has⟩ := ih.annotated ha hv hr he hn.1.annot hvalue
      (Expr.every_letIn.mp hna).2.1 (Run.solvedBy_emit.mp hρ).1 hsuits.letIn.1 hΓρ hσ hΓ hcv
    refine ⟨τ, Run.solvedBy_emit.mpr ⟨hτ, ?_⟩, hagree⟩
    rw [← hagree.subst hx.toWhole, hxt, has]

theorem let_admits {name : String} {annot ty : Ty} {value body : Expr} (hab : body.isAbsent = false)
    (ihv : Admits value) (ihb : Admits body) : Admits (.letIn name annot value body ty) := by
  intro env x run run' d h hr he hx hpl hna ρ σ Γ hρ hsuits hΓρ hσ hΓ hc
  obtain ⟨hn, hvalue, hbody⟩ := Expr.every_letIn.mp hpl
  obtain ⟨_, hnav, hnab⟩ := Expr.every_letIn.mp hna
  obtain ⟨a, run₁, v, run₂, b, hl, rfl⟩ := let_run hab (infer_leads _ value) (infer_leads _ body) h hr he hx
    (Expr.Plain.over hpl)
  obtain ⟨hsv, hsb⟩ := hsuits.letIn
  rw [Expr.mapTypes, mapPresent_subst] at hc
  obtain ⟨hcv, hcb⟩ := hc.of_letIn (by rw [Expr.isAbsent_mapTypes, infer_isAbsent hl.continued])
  obtain ⟨τ₁, hτ₁, hagree, has⟩ := ihv.annotated hl.annotated hl.valued hr he hn.1.annot hvalue hnav
    (hl.final.solved ρ hρ) hsv hΓρ hσ hΓ hcv
  have hscope := declare_under (hagree.under not_false he hΓ) name a
  rw [has] at hscope
  rw [hagree.subst hx.toWhole] at hcb
  obtain ⟨τ, hτ, hagree'⟩ := ihb hl.continued hl.before.wf hl.inside (hx.mono hl.before.size) hbody hnab hρ
    hsb (declare_under hΓρ name a) hτ₁ hscope hcb
  exact ⟨τ, hτ, hagree.trans hagree' hl.before.size⟩

theorem array_admits {item ty : Ty} {items : List Expr} (ih : ∀ e ∈ items, Admits e) :
    Admits (.array item items ty) := by
  intro env x run run' d h hr he hx hpl hna ρ σ Γ hρ hsuits hΓρ hσ hΓ hc
  obtain ⟨a, run₁, es, run₂, ha, hes, rfl, rfl⟩ := infer_array.mp h
  obtain ⟨hn, hitems⟩ := Expr.every_array.mp hpl
  obtain ⟨hl₁, hao⟩ := orFresh_leads ha hr hn.1.item
  obtain ⟨hopen, hnew⟩ := orFresh_opens ha hn.1.item
  obtain ⟨σ₁, hσ₁, hagree₁, hΓ₁, hsame⟩ := exists_spliced hopen hr he hσ hΓ ρ
  have has : a.subst σ₁ = a.subst ρ := hsame hnew
  rw [Expr.mapTypes, mapPresent_subst] at hc
  generalize hxt : x.subst σ = t at hc
  cases hc with
  | array _ hci =>
    rw [← has] at hci
    obtain ⟨τ, hτ, hagree⟩ := inferAll_admits ih hes hl₁.wf (he.mono hl₁.size) hao hitems
      (Expr.every_array.mp hna).2 (Run.solvedBy_emit.mp hρ).1 hsuits.array hΓρ hσ₁ hΓ₁ hci
    have hagree' := hagree₁.trans hagree hl₁.size
    refine ⟨τ, Run.solvedBy_emit.mpr ⟨hτ, ?_⟩, hagree'⟩
    rw [← hagree'.subst hx.toWhole, hxt, Ty.subst_array, ← hagree.subst hao.toWhole, has]

theorem seq_admits {effect value : Expr} {ty : Ty} (ihe : Admits effect) (ihv : Admits value) :
    Admits (.seq effect value ty) := by
  intro env x run run' d h hr he hx hpl hna ρ σ Γ hρ hsuits hΓρ hσ hΓ hc
  obtain ⟨f, run₁, v, hs, rfl⟩ := seq_run (infer_leads _ effect) (infer_leads _ value) h hr he hx
    (Expr.Plain.over hpl)
  obtain ⟨_, heffect, hvalue⟩ := Expr.every_seq.mp hpl
  obtain ⟨_, hnae, hnav⟩ := Expr.every_seq.mp hna
  obtain ⟨hse, hsv⟩ := hsuits.seq
  rw [Expr.mapTypes] at hc
  generalize hxt : x.subst σ = t at hc
  cases hc with
  | seq hce hcv =>
    obtain ⟨τ₁, hτ₁, hagree, _⟩ := ihe.fresh hs.effected hr he heffect hnae (hs.final.solved ρ hρ) hse hΓρ
      hσ hΓ hce
    obtain ⟨τ, hτ, hagree'⟩ := ihv hs.continued hs.before.wf (he.mono hs.before.size)
      (hx.mono hs.before.size) hvalue hnav hρ hsv hΓρ hτ₁ (hagree.under not_false he hΓ)
      (by rw [← hagree.subst hx.toWhole, hxt]; exact hcv)
    exact ⟨τ, hτ, hagree.trans hagree' hs.before.size⟩

theorem block_admits {items : List Expr} {ty : Ty} (ih : ∀ e ∈ items, Admits e) :
    Admits (.block items ty) := by
  intro env x run run' d h hr he hx hpl hna ρ σ Γ hρ hsuits hΓρ hσ hΓ hc
  obtain ⟨hne, es, hes, rfl⟩ := infer_block.mp h
  rw [Expr.mapTypes] at hc
  generalize hxt : x.subst σ = t at hc
  cases hc with
  | block hci =>
    rw [← hxt] at hci
    exact inferItems_admits ih hne hes hr he hx (Expr.every_block.mp hpl).2
      (Expr.every_block.mp hna).2 hρ hsuits.block hΓρ hσ hΓ hci

/-- Inference admits whatever the annotated tree checks against. -/
theorem infer_admits (e : Expr) : Admits e := by
  induction e with
  | absent => exact fun h => absurd h not_infer_absent
  | other kind => exact fun h => absurd h not_infer_other
  | int value ty =>
    intro env x run run' d h _ _ _ _ _ ρ σ Γ _ _ _ hσ _ hc
    obtain ⟨rfl, rfl⟩ := infer_int.mp h
    generalize hxt : x.subst σ = t at hc
    cases hc
    exact ⟨σ, Run.solvedBy_emit.mpr ⟨hσ, hxt⟩, .refl _ _⟩
  | str value ty =>
    intro env x run run' d h _ _ _ _ _ ρ σ Γ _ _ _ hσ _ hc
    obtain ⟨rfl, rfl⟩ := infer_str.mp h
    generalize hxt : x.subst σ = t at hc
    cases hc
    exact ⟨σ, Run.solvedBy_emit.mpr ⟨hσ, hxt⟩, .refl _ _⟩
  | var name typeArgs ty => exact var_admits
  | func params result body ty ih => exact func_admits ih
  | call callee args ty ihf iha => exact call_admits ihf iha
  | letIn name annot value body ty ihv ihb =>
    cases hab : body.isAbsent with
    | true =>
      obtain rfl := Expr.isAbsent_iff.mp hab
      exact let_alone_admits ihv
    | false => exact let_admits hab ihv ihb
  | group bs body ty ihf ihb =>
    intro env x run run' d h hr he hx hpl hna ρ σ Γ hρ hsuits hΓρ hσ hΓ hc
    exact group_admits ihf ihb h hr he hx hpl hna hρ hsuits hΓρ hσ hΓ hc
  | array item items ty ih => exact array_admits ih
  | seq effect value ty ihe ihv => exact seq_admits ihe ihv
  | block items ty ih => exact block_admits ih

end

end Polytype
