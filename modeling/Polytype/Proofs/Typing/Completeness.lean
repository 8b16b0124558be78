import Mathlib
import Polytype.Proofs.Typing.Soundness

/-!
# Completeness of inference

Whatever the type system accepts is inferred, with a generic type of which the accepted type is an
instance (`inferGeneric_principal`).

The induction is over the expression, for a solution `σ` of the equations that are there *before* it is
inferred: if the expected type, read through `σ`, is a type of the expression, then inference ends well
and `σ` extends to a solution of what it leaves behind. The environment of the run is at least as general
as that of the judgment (`Fits`). It is not the same one: a derivation may choose less general types for
the functions of a group than inference does, and then has fewer parameters for them. So type arguments
must not be given to functions of a group (`Expr.NoArgsAt`), where they are counted;
`exists_hasType_and_no_result` has such a program, and what else has to be excluded.
-/

namespace Polytype

open InferM

/-! ## Type arguments at names of groups -/

namespace Expr

mutual

/-- No variable that refers to one of the names `G` is given type arguments. A group adds its names,
and every other binding takes its own out. -/
def NoArgsAt (G : String → Prop) : Expr → Prop
  | var name typeArgs _ => G name → typeArgs = none
  | func params _ body _ => NoArgsAt (fun x => G x ∧ x ∉ params.map (·.name)) body
  | call callee args _ => NoArgsAt G callee ∧ NoArgsAtList G args
  | letIn name _ value body _ => NoArgsAt G value ∧ NoArgsAt (fun x => G x ∧ x ≠ name) body
  | group bindings body _ =>
    NoArgsAtBindings (fun x => G x ∨ x ∈ bindings.map (·.name)) bindings ∧
      NoArgsAt (fun x => G x ∨ x ∈ bindings.map (·.name)) body
  | array _ items _ => NoArgsAtList G items
  | seq effect value _ => NoArgsAt G effect ∧ NoArgsAt G value
  | block items _ => NoArgsAtItems G items
  | absent | int .. | str .. | other _ => True

/-- `NoArgsAt` for expressions beside each other. -/
def NoArgsAtList (G : String → Prop) : List Expr → Prop
  | [] => True
  | e :: es => NoArgsAt G e ∧ NoArgsAtList G es

/-- `NoArgsAt` for the items of a block. -/
def NoArgsAtItems (G : String → Prop) : List Expr → Prop
  | [] => True
  | e :: es => NoArgsAt G e ∧ NoArgsAtItems (fun x => G x ∧ e.boundAfter? ≠ some x) es

/-- `NoArgsAt` for a function of a group. -/
def NoArgsAtBinding (G : String → Prop) : Binding → Prop
  | .fn _ _ params _ body _ => NoArgsAt (fun x => G x ∧ x ∉ params.map (·.name)) body
  | .missing .. => True

/-- `NoArgsAt` for the functions of a group. -/
def NoArgsAtBindings (G : String → Prop) : List Binding → Prop
  | [] => True
  | b :: bs => NoArgsAtBinding G b ∧ NoArgsAtBindings G bs

end

theorem noArgsAtList_iff {G : String → Prop} {es : List Expr} :
    NoArgsAtList G es ↔ ∀ e ∈ es, e.NoArgsAt G := by
  induction es with
  | nil => simp [NoArgsAtList]
  | cons e es ih => rw [NoArgsAtList, ih, List.forall_mem_cons]

theorem noArgsAtBindings_iff {G : String → Prop} {bs : List Binding} :
    NoArgsAtBindings G bs ↔ ∀ b ∈ bs, ∀ f, b.func? = some f → f.NoArgsAt G := by
  induction bs with
  | nil => simp [NoArgsAtBindings]
  | cons b bs ih =>
    rw [NoArgsAtBindings, ih, List.forall_mem_cons]
    cases b with
    | fn name g params result body ty => simp [NoArgsAtBinding, Binding.func?, NoArgsAt]
    | missing name g => simp [NoArgsAtBinding, Binding.func?]

end Expr

/-! ## Environments that are at least as general -/

/-- The generic types of a name in a run and in a derivation: the first has all instances of the
second, and is the same unless the name belongs to a group. -/
def Fits (σ : Int → Ty) (G : String → Prop) (x : String) (g g' : Scheme) : Prop :=
  g.AtLeast σ g' ∧ (¬ G x → Scheme.Under σ g g')

theorem Scheme.Under.fits {σ : Int → Ty} {g g' : Scheme} (h : Scheme.Under σ g g')
    (G : String → Prop) (x : String) : Fits σ G x g g' :=
  ⟨h.atLeast, fun _ => h⟩

/-- Two assignments agree on the first variables. -/
def Agree (n : Nat) (σ τ : Int → Ty) : Prop := ∀ i : Int, 0 ≤ i → i < n → σ i = τ i

namespace Agree

variable {n m : Nat} {σ τ υ : Int → Ty}

theorem refl (n : Nat) (σ : Int → Ty) : Agree n σ σ := fun _ _ _ => rfl

theorem trans (h : Agree n σ τ) (h' : Agree m τ υ) (hnm : n ≤ m) : Agree n σ υ := fun i h0 hi =>
  (h i h0 hi).trans (h' i h0 (by omega))

/-- They agree on the variables of a type over the first variables. -/
theorem vars {V : Vocabulary} (h : Agree n σ τ) (hv : ¬ V.strays) {t : Ty} (ht : t.Over V n) :
    ∀ i ∈ t.vars, σ i = τ i := fun i hi => h i (ht.vars hv i hi).1 (ht.vars hv i hi).2

theorem subst (h : Agree n σ τ) {t : Ty} (ht : t.Over .whole n) : t.subst σ = t.subst τ :=
  Ty.subst_congr (h.vars not_false ht)

theorem map_subst (h : Agree n σ τ) {ts : List Ty} (ht : ∀ t ∈ ts, t.Over .whole n) :
    ts.map (Ty.subst σ) = ts.map (Ty.subst τ) :=
  List.map_congr_left fun t hm => h.subst (ht t hm)

theorem solvedBy {run : Run} (h : Agree run.store.size σ τ) (hr : run.WF .whole)
    (hσ : run.SolvedBy σ) : run.SolvedBy τ := by
  refine ⟨fun i t hb => ?_, fun c hc => ?_⟩
  · obtain ⟨h0, hi⟩ := Store.owns_iff.mp (Store.owns_of_binding? hb)
    rw [← h i h0 hi, ← h.subst (hr.store i t hb)]
    exact hσ.store i t hb
  · have := hσ.queue c hc
    rw [Constraint.SolvedBy] at this ⊢
    rwa [← h.subst (hr.queue c hc).1, ← h.subst (hr.queue c hc).2]

theorem rel {env Γ : Env} {G : String → Prop} (h : Agree n σ τ)
    (he : env.Over .whole n) (hΓ : env.Rel (Fits σ G) Γ) : env.Rel (Fits τ G) Γ := by
  refine hΓ.imp fun x g g' hx hf => ?_
  have hv := h.vars not_false (he x g hx)
  exact ⟨hf.1.congr hv, fun hG => (hf.2 hG).congr hv⟩

end Agree

/-! ## New variables -/

theorem map_assign {ids : List Int} {args : List Ty} (hd : ids.Nodup)
    (hl : ids.length = args.length) (σ : Int → Ty) : ids.map (assign ids args σ) = args := by
  induction ids generalizing args with
  | nil =>
    obtain rfl := List.length_eq_zero_iff.mp hl.symm
    rfl
  | cons id ids ih =>
    cases args with
    | nil => cases hl
    | cons a args =>
      rw [List.nodup_cons] at hd
      have hhead : assign (id :: ids) (a :: args) σ id = a := by
        simp [assign, List.zip_cons_cons]
      have htail : ∀ i ∈ ids, assign (id :: ids) (a :: args) σ i = assign ids args σ i := by
        intro i hi
        have hne : (i == id) = false := by
          simpa using fun he : i = id => hd.1 (he ▸ hi)
        simp [assign, List.zip_cons_cons, List.lookup_cons, hne]
      rw [List.map_cons, hhead, List.map_congr_left htail, ih hd.2 (Nat.succ.inj hl)]

/-- A solution extends to new variables by any types. -/
theorem alloc_complete {run : Run} (hr : run.WF .whole) {σ : Int → Ty}
    (hσ : run.SolvedBy σ) (ts : List Ty) :
    ∃ τ, (run.alloc ts.length).SolvedBy τ ∧ Agree run.store.size σ τ ∧
      (Store.freshList ts.length run.store).1.map (Ty.subst τ) = ts := by
  let ids := (List.range ts.length).map fun k : Nat => (run.store.size : Int) + k
  have hagree : Agree run.store.size σ (assign ids ts σ) := by
    intro i _ hi
    refine (assign_of_not_mem fun hm => ?_).symm
    obtain ⟨k, _, rfl⟩ := List.mem_map.mp hm
    omega
  have hdup : ids.Nodup := List.nodup_range.map fun a b hab => by
    have : (run.store.size : Int) + a = run.store.size + b := hab
    omega
  refine ⟨assign ids ts σ, (Run.solvedBy_alloc _).mpr (hagree.solvedBy hr hσ), hagree, ?_⟩
  have hmap : ids.map (assign ids ts σ) = ts := map_assign hdup (by simp [ids]) σ
  rw [Store.freshList_fst, List.map_map]
  rw [List.map_map] at hmap
  exact hmap

/-- A solution extends to a new variable by any type. -/
theorem fresh_complete {run : Run} (hr : run.WF .whole) {σ : Int → Ty} (hσ : run.SolvedBy σ) (u : Ty) :
    ∃ τ, (run.alloc 1).SolvedBy τ ∧ Agree run.store.size σ τ ∧
      (Ty.var run.store.size).subst τ = u := by
  obtain ⟨τ, hτ, hagree, hmap⟩ := alloc_complete hr hσ [u]
  exact ⟨τ, hτ, hagree, by simpa [Store.freshList_fst] using hmap⟩

/-! ## Parts of inference -/

section

variable {run : Run} {env Γ : Env} {σ : Int → Ty} {G : String → Prop}

theorem orFresh_complete {a t' : Ty} (hr : run.WF .whole) (ha : a ≠ .absent → a.Over .whole 0)
    (hσ : run.SolvedBy σ) (ht : Fills a t') :
    ∃ t run' τ, (orFresh a).Yields run t run' ∧ run'.SolvedBy τ ∧ Agree run.store.size σ τ ∧
      t.subst τ = t' := by
  by_cases hab : a = .absent
  · obtain ⟨τ, hτ, hagree, ht⟩ := fresh_complete hr hσ t'
    exact ⟨_, _, τ, yields_orFresh.mpr (.inl ⟨hab, rfl, rfl⟩), hτ, hagree, ht⟩
  · refine ⟨a, run, σ, yields_orFresh.mpr (.inr ⟨hab, rfl, rfl⟩), hσ, .refl _ _, ?_⟩
    rw [Ty.subst_closed ((ha hab).closed not_false)]
    exact (ht.resolve_left hab).symm

theorem declare_fits (h : env.Rel (Fits σ G) Γ) (x : String) {t t' : Ty} (ht : t.subst σ = t') :
    (env.declare x t).Rel (Fits σ fun y => G y ∧ y ≠ x) (Γ.declare x t') := by
  subst ht
  refine h.extend ((Scheme.Under.mono σ t).fits _ x) fun y hy g g' hf => ⟨hf.1, fun hG => ?_⟩
  exact hf.2 fun hGy => hG ⟨hGy, hy⟩

theorem openParams_complete {ps typed : List Param} (hr : run.WF .whole)
    (he : env.Over .whole run.store.size) (hp : ∀ p ∈ ps, p.ty ≠ .absent → p.ty.Over .whole 0)
    (hpres : env.Present) (hσ : run.SolvedBy σ) (hΓ : env.Rel (Fits σ G) Γ)
    (ht : List.Forall₂ Param.Typed ps typed) :
    ∃ qs inner run' τ, (openParams env ps).Yields run (qs, inner) run' ∧ run'.SolvedBy τ ∧
      Agree run.store.size σ τ ∧ qs.map (Param.subst τ) = typed ∧ inner.Present ∧
      inner.Rel (Fits τ fun x => G x ∧ x ∉ ps.map (·.name)) (Γ.declareParams typed) := by
  induction ht generalizing env Γ run σ G with
  | nil =>
    refine ⟨[], env, run, σ, openParams_nil.mpr ⟨rfl, rfl⟩, hσ, .refl _ _, rfl, hpres, ?_⟩
    exact hΓ.imp fun x g g' _ hf => ⟨hf.1, fun hG => hf.2 fun hx => hG ⟨hx, by simp⟩⟩
  | @cons p q ps typed hpq _ ih =>
    rw [List.forall_mem_cons] at hp
    obtain ⟨t, run₁, τ₁, ht, hτ₁, hagree, hsub⟩ := orFresh_complete hr hp.1 hσ hpq.2
    obtain ⟨hl, hto⟩ := orFresh_leads ht hr hp.1
    have hrel := declare_fits (hagree.rel he hΓ) p.name hsub
    have henv : (env.declare p.name t).Over .whole run₁.store.size :=
      (he.mono hl.size).declare (.ofTy hto)
    obtain ⟨qs, inner, run', τ, hopen, hτ, hagree', hqs, hip, hinner⟩ :=
      ih hl.wf henv hp.2 (hpres.extend _ _) hτ₁ hrel
    refine ⟨⟨p.name, t⟩ :: qs, inner, run', τ,
      openParams_cons.mpr ⟨t, run₁, qs, inner, ht, hopen, rfl⟩, hτ, hagree.trans hagree' hl.size,
      ?_, hip, ?_⟩
    · rw [List.map_cons, hqs, Param.subst, ← hagree'.subst hto, hsub, ← hpq.1]
    · rw [Env.declareParams, List.foldl_cons, hpq.1]
      refine hinner.imp fun x g g' _ hf => ⟨hf.1, fun hG => hf.2 fun hx => hG ⟨hx.1.1, ?_⟩⟩
      simpa using ⟨hx.1.2, by simpa using hx.2⟩

theorem unifyTypeArgs_complete {invalid : Expr} {as vs : List Ty} (hr : run.WF .whole)
    (ha : ∀ a ∈ as, a.Over .whole 0) (hv : ∀ v ∈ vs, v.Over .whole run.store.size)
    (hσ : run.SolvedBy σ) (heq : as = [] ∨ as = vs.map (Ty.subst σ)) :
    ∃ run', (unifyTypeArgs invalid as vs).Yields run () run' ∧ run'.SolvedBy σ := by
  rcases heq with rfl | rfl
  · exact ⟨run, unifyTypeArgs_nil.mpr rfl, hσ⟩
  · induction vs generalizing run with
    | nil => exact ⟨run, unifyTypeArgs_nil.mpr rfl, hσ⟩
    | cons v vs ih =>
      rw [List.map_cons, List.forall_mem_cons] at ha
      rw [List.forall_mem_cons] at hv
      have hsub : (v.subst σ).subst σ = v.subst σ := Ty.subst_closed (ha.1.closed not_false) σ
      have hvo := ha.1.mono (Nat.zero_le run.store.size)
      have hn := Store.unify_eq_none hr.acyclic hr.store hvo hv.1 hσ.store hsub
      have hl := Run.Leads.unify hr hvo hv.1 hn
      obtain ⟨run', hrest, hσ'⟩ := ih hl.wf (fun w hw => (hv.2 w hw).mono hl.size)
        ((Run.solvedBy_unify hr hn).mpr ⟨hσ, hsub⟩) ha.2
      exact ⟨run', unifyTypeArgs_cons.mpr ⟨hn, hrest⟩, hσ'⟩

/-! ## Inference -/

/-- If a solution takes the expected type to a type of the expression, then inference ends well, and
the solution extends to what it leaves behind. -/
def Complete (e : Expr) : Prop :=
  ∀ {env : Env} {x : Ty} {run : Run}, run.WF .whole → env.Over .whole run.store.size →
    x.Over .whole run.store.size → e.Plain .whole → env.Present →
    ∀ {σ : Int → Ty} {Γ : Env} {G : String → Prop}, e.NoArgsAt G → run.SolvedBy σ →
      env.Rel (Fits σ G) Γ → HasType Γ e (x.subst σ) →
      ∃ d run' τ, (infer env x e).Yields run d run' ∧ run'.SolvedBy τ ∧ Agree run.store.size σ τ

/-- An expression is inferred for a new variable, which stands for its type. -/
theorem Complete.fresh {e : Expr} {u : Ty} (ih : Complete e) (hr : run.WF .whole)
    (he : env.Over .whole run.store.size) (hpl : e.Plain .whole) (hpres : env.Present)
    (hG : e.NoArgsAt G) (hσ : run.SolvedBy σ) (hΓ : env.Rel (Fits σ G) Γ) (ht : HasType Γ e u) :
    ∃ d run' τ, (infer env (.var run.store.size) e).Yields (run.alloc 1) d run' ∧
      run.Leads .whole run' ∧ run'.SolvedBy τ ∧ Agree run.store.size σ τ ∧
      (Ty.var run.store.size).subst τ = u := by
  have ha := Run.Leads.alloc hr 1
  have hx : (Ty.var run.store.size).Over .whole _ := over_fresh run
  obtain ⟨τ₀, hτ₀, hagree₀, hu⟩ := fresh_complete hr hσ u
  obtain ⟨d, run', τ, hd, hτ, hagree⟩ := ih ha.wf (he.mono ha.size) hx hpl hpres hG hτ₀
    (hagree₀.rel he hΓ) (by rw [hu]; exact ht)
  have hl := (infer_leads .whole e hd ha.wf (he.mono ha.size) hx hpl.over).1
  exact ⟨d, run', τ, hd, ha.trans hl, hτ, hagree₀.trans hagree ha.size, by rw [← hagree.subst hx, hu]⟩

/-- An expression is inferred for the type that it is annotated with, or for a new variable. -/
theorem Complete.annotated {e : Expr} {annot u : Ty} (ih : Complete e) (hr : run.WF .whole)
    (he : env.Over .whole run.store.size) (ha : annot ≠ .absent → annot.Over .whole 0)
    (hpl : e.Plain .whole) (hpres : env.Present) (hG : e.NoArgsAt G) (hσ : run.SolvedBy σ)
    (hΓ : env.Rel (Fits σ G) Γ) (hfill : Fills annot u) (ht : HasType Γ e u) :
    ∃ a run₁ d run' τ, (orFresh annot).Yields run a run₁ ∧ (infer env a e).Yields run₁ d run' ∧
      run.Leads .whole run' ∧ a.Over .whole run'.store.size ∧ run'.SolvedBy τ ∧
      Agree run.store.size σ τ ∧ a.subst τ = u := by
  obtain ⟨a, run₁, τ₁, hfresh, hτ₁, hagree₁, hau⟩ := orFresh_complete hr ha hσ hfill
  obtain ⟨hl₁, hao⟩ := orFresh_leads hfresh hr ha
  obtain ⟨d, run', τ, hd, hτ, hagree⟩ := ih hl₁.wf (he.mono hl₁.size) hao hpl hpres hG hτ₁
    (hagree₁.rel he hΓ) (by rw [hau]; exact ht)
  have hl := (infer_leads .whole e hd hl₁.wf (he.mono hl₁.size) hao hpl.over).1
  exact ⟨a, run₁, d, run', τ, hfresh, hd, hl₁.trans hl, hao.mono hl.size, hτ,
    hagree₁.trans hagree hl₁.size, by rw [← hagree.subst hao, hau]⟩

theorem inferAll_complete {es : List Expr} {x : Ty} (ih : ∀ e ∈ es, Complete e)
    (hr : run.WF .whole) (he : env.Over .whole run.store.size) (hx : x.Over .whole run.store.size)
    (hes : ∀ e ∈ es, e.Plain .whole) (hpres : env.Present) (hG : ∀ e ∈ es, e.NoArgsAt G)
    (hσ : run.SolvedBy σ) (hΓ : env.Rel (Fits σ G) Γ) (ht : ∀ e ∈ es, HasType Γ e (x.subst σ)) :
    ∃ ds run' τ, (inferAll env x es).Yields run ds run' ∧ run'.SolvedBy τ ∧
      Agree run.store.size σ τ := by
  induction es generalizing run σ with
  | nil => exact ⟨[], run, σ, inferAll_nil.mpr ⟨rfl, rfl⟩, hσ, .refl _ _⟩
  | cons e es ihs =>
    rw [List.forall_mem_cons] at ih hes hG ht
    obtain ⟨d, run₁, τ₁, hd, hτ₁, hagree⟩ := ih.1 hr he hx hes.1 hpres hG.1 hσ hΓ ht.1
    have hl := (infer_leads .whole e hd hr he hx hes.1.over).1
    obtain ⟨ds, run', τ, hds, hτ, hagree'⟩ := ihs ih.2 hl.wf (he.mono hl.size) (hx.mono hl.size)
      hes.2 hG.2 hτ₁ (hagree.rel he hΓ) (by rw [← hagree.subst hx]; exact ht.2)
    exact ⟨d :: ds, run', τ, inferAll_cons.mpr ⟨d, run₁, ds, hd, hds, rfl⟩, hτ,
      hagree.trans hagree' hl.size⟩

theorem inferEach_complete {es : List Expr} {ts : List Ty} (ih : ∀ e ∈ es, Complete e)
    (hr : run.WF .whole) (he : env.Over .whole run.store.size)
    (hts : ∀ t ∈ ts, t.Over .whole run.store.size) (hes : ∀ e ∈ es, e.Plain .whole)
    (hpres : env.Present) (hG : ∀ e ∈ es, e.NoArgsAt G) (hσ : run.SolvedBy σ)
    (hΓ : env.Rel (Fits σ G) Γ) (ht : HasEach Γ es (ts.map (Ty.subst σ))) :
    ∃ ds run' τ, (inferEach env ts es).Yields run ds run' ∧ run'.SolvedBy τ ∧
      Agree run.store.size σ τ := by
  induction es generalizing run σ ts with
  | nil => exact ⟨[], run, σ, inferEach_nil.mpr ⟨rfl, rfl⟩, hσ, .refl _ _⟩
  | cons e es ihs =>
    cases ts with
    | nil => cases ht
    | cons t ts =>
      rw [List.map_cons] at ht
      cases ht with
      | cons hte htes =>
        rw [List.forall_mem_cons] at ih hes hG hts
        obtain ⟨d, run₁, τ₁, hd, hτ₁, hagree⟩ := ih.1 hr he hts.1 hes.1 hpres hG.1 hσ hΓ hte
        have hl := (infer_leads .whole e hd hr he hts.1 hes.1.over).1
        rw [hagree.map_subst hts.2] at htes
        obtain ⟨ds, run', τ, hds, hτ, hagree'⟩ := ihs ih.2 hl.wf (he.mono hl.size)
          (fun u hu => (hts.2 u hu).mono hl.size) hes.2 hG.2 hτ₁ (hagree.rel he hΓ) htes
        exact ⟨d :: ds, run', τ, inferEach_cons.mpr ⟨d, run₁, ds, hd, hds, rfl⟩, hτ,
          hagree.trans hagree' hl.size⟩

/-- The environment after an item still fits that of the judgment. -/
theorem after_fits {x : Ty} {e d : Expr} {run' : Run} (h : (infer env x e).Yields run d run')
    (hσ : run'.SolvedBy σ) (hΓ : env.Rel (Fits σ G) Γ) (hpres : env.Present) :
    (env.after d).Rel (Fits σ fun y => G y ∧ e.boundAfter? ≠ some y)
        (Γ.afterItem e (x.subst σ)) ∧ (env.after d).Present := by
  cases hb : e.boundAfter? with
  | none =>
    rw [Env.after_eq_self ((infer_boundAfter h).trans hb), Env.afterItem, hb]
    exact ⟨hΓ.imp fun y g g' _ hf => ⟨hf.1, fun hG => hf.2 fun hy => hG ⟨hy, by simp⟩⟩, hpres⟩
  | some name =>
    obtain ⟨annot, value, ty, rfl⟩ := Expr.boundAfter?_eq_some hb
    obtain ⟨a, run₁, v, run₂, _, _, rfl, rfl⟩ := infer_let_alone.mp h
    rw [Env.afterItem, hb]
    have hrel := declare_fits hΓ name (Run.solvedBy_emit.mp hσ).2.symm
    refine ⟨hrel.imp fun y g g' _ hf => ⟨hf.1, fun hG => hf.2 fun hy => hG ⟨hy.1, ?_⟩⟩,
      hpres.extend _ _⟩
    exact fun heq => hy.2 (Option.some.inj heq).symm

theorem inferItems_complete {es : List Expr} {x : Ty} (ih : ∀ e ∈ es, Complete e)
    (hr : run.WF .whole) (he : env.Over .whole run.store.size) (hx : x.Over .whole run.store.size)
    (hes : ∀ e ∈ es, e.Plain .whole) (hpres : env.Present) (hG : Expr.NoArgsAtItems G es)
    (hσ : run.SolvedBy σ) (hΓ : env.Rel (Fits σ G) Γ) (ht : HasItems Γ es (x.subst σ)) :
    ∃ ds run' τ, (inferItems env x es).Yields run ds run' ∧ run'.SolvedBy τ ∧
      Agree run.store.size σ τ := by
  induction es generalizing env Γ run σ G with
  | nil => cases ht
  | cons e es ihs =>
    rw [List.forall_mem_cons] at ih hes
    rw [Expr.NoArgsAtItems] at hG
    cases ht with
    | last ht =>
      obtain ⟨d, run', τ, hd, hτ, hagree⟩ := ih.1 hr he hx hes.1 hpres hG.1 hσ hΓ ht
      exact ⟨[d], run', τ, inferItems_last.mpr ⟨d, hd, rfl⟩, hτ, hagree⟩
    | @cons _ _ f es u _ hte htes =>
      have ha := Run.Leads.alloc hr 1
      obtain ⟨d, run₁, τ₁, hd, hl, hτ₁, hagree, hu⟩ :=
        Complete.fresh ih.1 hr he hes.1 hpres hG.1 hσ hΓ hte
      have hafter := (infer_leads .whole e hd ha.wf (he.mono ha.size) (over_fresh run) hes.1.over).2
      obtain ⟨hrel, hpres'⟩ := after_fits hd hτ₁ (hagree.rel he hΓ) hpres
      rw [hu] at hrel
      obtain ⟨ds, run', τ, hds, hτ, hagree'⟩ := ihs ih.2 hl.wf (hafter env (he.mono hl.size))
        (hx.mono hl.size) hes.2 hpres' hG.2 hτ₁ hrel (by rw [← hagree.subst hx]; exact htes)
      exact ⟨d :: ds, run', τ, inferItems_cons.mpr ⟨d, run₁, ds, hd, hds, rfl⟩, hτ,
        hagree.trans hagree' hl.size⟩

/-! ## Groups -/

theorem placeholders_complete {bs : List Binding} (hb : ∀ b ∈ bs, b.scheme = none)
    {ts : List Ty} (hlen : ts.length = bs.length) (hr : run.WF .whole) (hσ : run.SolvedBy σ) :
    ∃ ps run' τ, (placeholders bs).Yields run ps run' ∧ run'.SolvedBy τ ∧
      Agree run.store.size σ τ ∧ ps.map (fun p => p.body.subst τ) = ts := by
  induction bs generalizing run σ ts with
  | nil =>
    obtain rfl := List.length_eq_zero_iff.mp hlen
    exact ⟨[], run, σ, placeholders_nil.mpr ⟨rfl, rfl⟩, hσ, .refl _ _, rfl⟩
  | cons b bs ih =>
    cases ts with
    | nil => cases hlen
    | cons t ts =>
      rw [List.forall_mem_cons] at hb
      have ha := Run.Leads.alloc hr 1
      obtain ⟨τ₀, hτ₀, hagree₀, ht⟩ := fresh_complete hr hσ t
      obtain ⟨ps, run', τ, hps, hτ, hagree, hts⟩ := ih hb.2 (Nat.succ.inj hlen) ha.wf hτ₀
      refine ⟨_, run', τ, (placeholders_open hb.1).mpr ⟨ps, hps, rfl⟩, hτ,
        hagree₀.trans hagree ha.size, ?_⟩
      have hhead : (Ty.var run.store.size).subst τ = t := by
        rw [← hagree.subst (over_fresh run), ht]
      rw [List.map_cons, hts]
      exact congrArg (· :: ts) hhead

theorem inferBindings_complete {bs : List Binding} {ps : List Scheme}
    (ih : ∀ b ∈ bs, ∀ f, b.func? = some f → Complete f) (hr : run.WF .whole)
    (he : env.Over .whole run.store.size) (hp : ∀ p ∈ ps, p.body.Over .whole run.store.size)
    (hbs : ∀ b ∈ bs, ∀ f, b.func? = some f → f.Plain .whole) (hpres : env.Present)
    (hG : ∀ b ∈ bs, ∀ f, b.func? = some f → f.NoArgsAt G) (hσ : run.SolvedBy σ)
    (hΓ : env.Rel (Fits σ G) Γ) (ht : HasBindings Γ bs (ps.map fun p => p.body.subst σ)) :
    ∃ ts run' τ, (inferBindings env ps bs).Yields run ts run' ∧ run'.SolvedBy τ ∧
      Agree run.store.size σ τ := by
  induction bs generalizing run σ ps with
  | nil => exact ⟨[], run, σ, inferBindings_nil.mpr ⟨rfl, rfl⟩, hσ, .refl _ _⟩
  | cons b bs ihs =>
    cases ps with
    | nil => cases ht
    | cons p ps =>
      rw [List.map_cons] at ht
      cases ht with
      | @cons _ _ f _ _ _ hf hte htes =>
        rw [List.forall_mem_cons] at ih hbs hG hp
        obtain ⟨d, run₁, τ₁, hd, hτ₁, hagree⟩ :=
          ih.1 f hf hr he hp.1 (hbs.1 f hf) hpres (hG.1 f hf) hσ hΓ hte
        have hl := (infer_leads .whole f hd hr he hp.1 (hbs.1 f hf).over).1
        have hmap : (ps.map fun q => q.body.subst σ) = ps.map fun q => q.body.subst τ₁ :=
          List.map_congr_left fun q hq => hagree.subst (hp.2 q hq)
        rw [hmap] at htes
        obtain ⟨ds, run', τ, hds, hτ, hagree'⟩ := ihs ih.2 hl.wf (he.mono hl.size)
          (fun q hq => (hp.2 q hq).mono hl.size) hbs.2 hG.2 hτ₁ (hagree.rel he hΓ) htes
        -- the function is recorded with the parts that were inferred for it
        cases b with
        | missing name g => cases hf
        | fn name g params result body ty =>
          cases hf
          obtain ⟨qs, inner, _, r, _, c, _, _, _, _, rfl, _⟩ := infer_func.mp hd
          exact ⟨_ :: ds, run', τ, inferBindings_cons.mpr ⟨_, run₁, ds, inferBinding_yields.mpr
            ⟨name, g, params, result, body, ty, qs, r, c, rfl, hd, rfl⟩, hds, rfl⟩, hτ,
            hagree.trans hagree' hl.size⟩

theorem generalizedAll_exists (hpres : env.Present) (s : Store) {bs ts : List Binding}
    {ps : List Scheme} (hb : ∀ b ∈ bs, b.scheme = none) (hp : ps.length = bs.length)
    (hl : ts.length = bs.length) (ht : ∀ t ∈ ts, t.IsFn) :
    ∃ gs ds, GeneralizedAll s env bs ps ts gs ds := by
  induction bs generalizing ps ts with
  | nil =>
    obtain rfl := List.length_eq_zero_iff.mp hp
    obtain rfl := List.length_eq_zero_iff.mp hl
    exact ⟨[], [], .nil⟩
  | cons b bs ih =>
    cases ps with
    | nil => cases hp
    | cons p ps =>
      cases ts with
      | nil => cases hl
      | cons t ts =>
        rw [List.forall_mem_cons] at hb ht
        obtain ⟨gs, ds, hrest⟩ := ih hb.2 (Nat.succ.inj hp) (Nat.succ.inj hl) ht.2
        obtain ⟨name, old, params, result, body, ty, rfl, _⟩ := ht.1
        obtain ⟨⟨g, store?⟩, hc⟩ :=
          (@closing_isOk s env p.body (.func params result body ty)).mpr (.inr hpres)
        cases store? with
        | none => exact ⟨g :: gs, _, .cons (by rw [hb.1]; exact .closed hc) hrest⟩
        | some store => exact ⟨g :: gs, _, .cons (by rw [hb.1]; exact .named hc) hrest⟩

/-- What inference generalises has all instances of what a derivation generalises. -/
theorem Closes.atLeast {s : Store} {t : Ty} {scope : Expr} {g g' : Scheme}
    {store? : Option Store} (hc : Closes s env t scope g store?)
    (ht : ∀ u ∈ (s.resolve t).vars, s.owns u = true) (hσ : s.SolvedBy σ)
    (hΓ : env.Rel (Fits σ G) Γ) (hg : Generalizes Γ (t.subst σ) g') : g.AtLeast σ g' := by
  intro args' ha
  have hless : env.Rel (fun _ => Scheme.AtLeast σ) Γ := hΓ.imp fun _ _ _ _ hf => hf.1
  let θ := assign (firstsNotIn (t.subst σ).vars Γ.vars) args' .var
  refine ⟨(s.generalizable env t).map fun u => (σ u).subst θ, by rw [List.length_map, hc.length], ?_⟩
  rw [hc.applyUnder (by rw [List.length_map, hc.length]), hg.apply ha, ← Store.subst_resolve hσ t,
    Ty.subst_subst]
  refine Ty.subst_congr fun u hu => ?_
  by_cases hk : u ∈ env.varsUnder s.resolve
  · -- a variable of the environment is not generalised by the derivation
    rw [assign_of_not_mem fun hi => (Store.mem_generalizable.mp hi).2 hk]
    refine (Ty.subst_eq_self fun w hw => assign_of_not_mem fun hi => ?_).symm
    exact (mem_firstsNotIn.mp hi).2 (mem_vars_of_mem_varsUnder hσ hless hk hw)
  · rw [assign_map (Store.mem_generalizable.mpr ⟨⟨hu, ht u hu⟩, hk⟩), Store.subst_resolve hσ t]

theorem forall₂_atLeast {s : Store} {ps gs gs' : List Scheme}
    (h : List.Forall₂ (fun p g => ∃ scope store?, Closes s env p.body scope g store?) ps gs)
    (hp : ∀ p ∈ ps, ∀ u ∈ (s.resolve p.body).vars, s.owns u = true) (hσ : s.SolvedBy σ)
    (hΓ : env.Rel (Fits σ G) Γ)
    (hg : List.Forall₂ (Generalizes Γ) (ps.map fun p => p.body.subst σ) gs') :
    List.Forall₂ (Scheme.AtLeast σ) gs gs' := by
  induction h generalizing gs' with
  | nil =>
    cases hg
    exact .nil
  | cons hc _ ih =>
    cases hg with
    | cons hgen hgens =>
      rw [List.forall_mem_cons] at hp
      obtain ⟨scope, store?, hc⟩ := hc
      exact .cons (hc.atLeast hp.1 hσ hΓ hgen) (ih hp.2 hgens)

theorem HasEach.length {Γ : Env} {es : List Expr} {ts : List Ty} (h : HasEach Γ es ts) :
    ts.length = es.length := by
  induction es generalizing ts with
  | nil =>
    cases h
    rfl
  | cons e es ih =>
    cases h with
    | cons _ hes => rw [List.length_cons, List.length_cons, ih hes]

theorem HasBindings.length {Γ : Env} {bs : List Binding} {ts : List Ty} (h : HasBindings Γ bs ts) :
    ts.length = bs.length := by
  induction bs generalizing ts with
  | nil =>
    cases h
    rfl
  | cons b bs ih =>
    cases h with
    | cons _ _ hbs => rw [List.length_cons, List.length_cons, ih hbs]

/-- A group whose functions and body have types in a derivation is inferred. -/
theorem group_complete {bs : List Binding} {body : Expr} {ty x : Ty} {ts : List Ty}
    {gs' : List Scheme} (ihf : ∀ b ∈ bs, ∀ f, b.func? = some f → Complete f)
    (ihb : Complete body) (hr : run.WF .whole) (he : env.Over .whole run.store.size)
    (hx : x.Over .whole run.store.size) (hpl : (Expr.group bs body ty).Plain .whole)
    (hpres : env.Present) (hG : (Expr.group bs body ty).NoArgsAt G) (hσ : run.SolvedBy σ)
    (hΓ : env.Rel (Fits σ G) Γ) (hfuncs : HasBindings (Γ.extendGroup bs (ts.map .mono)) bs ts)
    (hgen : List.Forall₂ (Generalizes Γ) ts gs')
    (hbody : HasType (Γ.extendGroup bs gs') body (x.subst σ)) :
    ∃ d run' τ, (infer env x (.group bs body ty)).Yields run d run' ∧ run'.SolvedBy τ ∧
      Agree run.store.size σ τ := by
  obtain ⟨hn, hfpl, hbpl⟩ := Expr.every_group.mp hpl
  have hnone := Expr.scheme_eq_none hn.2
  have hgiven : ∀ b ∈ bs, ∀ g, b.scheme = some g → g.body.Over .whole 0 := fun b hb g hg => by
    rw [hnone b hb] at hg
    cases hg
  rw [Expr.NoArgsAt, Expr.noArgsAtBindings_iff] at hG
  have hin : ∀ b ∈ bs, G b.name ∨ b.name ∈ bs.map (·.name) := fun b hb =>
    .inr (List.mem_map_of_mem hb)
  -- the placeholders stand for the types of the derivation
  have hl₀ := Run.Leads.groups hr (run.groups + 1)
  have hσ₀ : ({ run with groups := run.groups + 1 } : Run).SolvedBy σ := ⟨hσ.store, hσ.queue⟩
  obtain ⟨ps, run₁, τ₁, hp, hτ₁, hagree₁, hts⟩ :=
    placeholders_complete hnone hfuncs.length hl₀.wf hσ₀
  have hplen := placeholders_length hp
  obtain ⟨hl₁, hpo⟩ := placeholders_leads hp hl₀.wf hgiven
  have hl₀₁ := hl₀.trans hl₁
  have he₁ := he.mono hl₀₁.size
  have hrel₁ : env.Rel (Fits τ₁ fun y => G y ∨ y ∈ bs.map (·.name)) Γ :=
    (hagree₁.rel he hΓ).imp fun y g g' _ hf => ⟨hf.1, fun hG => hf.2 fun hy => hG (.inl hy)⟩
  have hinside : (env.extendGroup bs ps).Over .whole run₁.store.size :=
    he₁.extendGroup fun p hp => .of_body (hpo p hp)
  have hmono := placeholders_mono hp hnone
  have hrel := hrel₁.extendGroup (rfl : bs.map (·.name) = _) (forall₂_under_mono hmono)
    fun b hb g g' hu => (hu : Scheme.Under τ₁ g g').fits _ b.name
  rw [hts] at hrel
  -- the functions are inferred and the constraints solved
  obtain ⟨us, run₂, τ₂, hus, hτ₂, hagree₂⟩ := inferBindings_complete ihf hl₁.wf hinside hpo hfpl
    (hpres.extendGroup bs ps) hG.1 hτ₁ hrel (by rw [hts]; exact hfuncs)
  obtain ⟨hulen, hfn⟩ := inferBindings_isFn hus hplen
  have hl₂ := inferBindings_leads (fun b _ f _ => infer_leads .whole f) hus hplen hl₁.wf hinside hpo
    fun b hb f hf => Expr.Plain.over (hfpl b hb f hf)
  have hlog := Run.Leads.withLog hl₂.wf (run₂.log.push
    (.solving (run.groups + 1) bs.length run₂.queue.size))
  have hτlog : (run₂.withLog (run₂.log.push
    (.solving (run.groups + 1) bs.length run₂.queue.size))).SolvedBy τ₂ := ⟨hτ₂.store, hτ₂.queue⟩
  obtain ⟨run₃, hs⟩ := Run.solve_yields hlog.wf hτlog
  have hl₃ := hlog.trans (.solve hlog.wf hs)
  have hτ₃ : run₃.SolvedBy τ₂ := (Run.solvedBy_solve hlog.wf hs).mpr hτlog
  -- the functions are generalised
  obtain ⟨gs, ds, hga⟩ := generalizedAll_exists hpres run₃.store hnone hplen hulen hfn
  have hpo' : ∀ p ∈ ps, p.body.Over .whole run₃.store.size := fun p hp =>
    (hpo p hp).mono (hl₂.trans hl₃).size
  have hagree := hagree₁.trans hagree₂ hl₁.size
  have hl := (hl₀₁.trans hl₂).trans hl₃
  have hrel₂ : env.Rel (Fits τ₂ fun y => G y ∨ y ∈ bs.map (·.name)) Γ := hagree₂.rel he₁ hrel₁
  have hts₂ : (ps.map fun p => p.body.subst τ₂) = ts := by
    rw [← hts]
    exact List.map_congr_left fun p hp => (hagree₂.subst (hpo p hp)).symm
  have hatl := forall₂_atLeast (hga.closes hl₃.wf.acyclic hnone)
    (fun p hp => hl₃.wf.owns_resolve not_false (hpo' p hp)) hτ₃.store hrel₂ (by rw [hts₂]; exact hgen)
  have houter := hrel₂.extendGroup (rfl : bs.map (·.name) = _) hatl
    fun b hb g g' ha => ⟨ha, fun hG => absurd (hin b hb) hG⟩
  obtain ⟨notes, hgroup⟩ := @infer_group_of env x run bs us ds body ty ps gs run₁ run₂ run₃ hp hus hs hga
  have hl₄ := Run.Leads.withNotes hl₃.wf notes
  have hover : (env.extendGroup bs gs).Over .whole run₃.store.size :=
    (he.mono hl.size).extendGroup (hga.over hl₃.wf hpo' hgiven)
  obtain ⟨b, run', τ, hb, hτ, hagree'⟩ := @ihb (env.extendGroup bs gs) x (run₃.withNotes notes) hl₄.wf
    hover (hx.mono hl.size) hbpl (hpres.extendGroup bs gs) τ₂ _ _ hG.2 ⟨hτ₃.store, hτ₃.queue⟩ houter
    (by rw [← hagree.subst hx]; exact hbody)
  exact ⟨_, run', τ, hgroup hb, hτ, hagree.trans hagree' hl.size⟩

/-! ## Inference, case by case -/

theorem var_complete {name : String} {typeArgs : Option (List Ty)} {ty : Ty} :
    Complete (.var name typeArgs ty) := by
  intro env x run hr he hx hpl _ σ Γ G hG hσ hΓ ht
  generalize hxt : x.subst σ = t at ht
  cases ht with
  | @var _ _ _ _ g' args' hg' hlen' hgiven' =>
    obtain ⟨g, hg, hfit⟩ := hΓ.lookup_right hg'
    -- the types for the parameters in the run, which are the given ones where they are given
    obtain ⟨args, hlen, happ, hgiven⟩ : ∃ args : List Ty, args.length = g.params.length ∧
        g.applyUnder σ args = g'.apply args' ∧ ∀ given, typeArgs = some given → given = args := by
      cases typeArgs with
      | none =>
        obtain ⟨args, hl, heq⟩ := hfit.1 args' hlen'
        exact ⟨args, hl, heq, by simp⟩
      | some given =>
        have hunder := hfit.2 fun hGn => by cases hG hGn
        have hl := hlen'.trans hunder.length
        exact ⟨args', hl, (hunder.apply_eq args' hl).symm, hgiven'⟩
    obtain ⟨τ, hτ, hagree, hmap⟩ := alloc_complete hr hσ args
    rw [hlen] at hτ hmap
    have ha := Run.Leads.alloc hr g.params.length
    have hfresh : ∀ v ∈ (Store.freshList g.params.length run.store).1, v.Over .whole _ :=
      over_freshList run g.params.length
    obtain ⟨run₁, hu, hτ₁⟩ := @unifyTypeArgs_complete _ τ (.var name typeArgs ty)
      (typeArgs.getD []) _ ha.wf (Expr.every_var.mp hpl).1.typeArguments hfresh hτ (by
        cases typeArgs with
        | none => exact .inl rfl
        | some given => exact .inr (by rw [hmap]; exact hgiven given rfl))
    refine ⟨_, _, τ, infer_var.mpr ⟨g, run₁, hg, fun given hgi => ?_, hu, rfl, rfl⟩,
      Run.solvedBy_emit.mpr ⟨hτ₁, ?_⟩, hagree⟩
    · rw [hgiven given hgi, hlen]
    · have hv := hagree.vars not_false (he name g hg)
      rw [← hagree.subst hx, hxt, Scheme.subst_apply, hmap, ← happ, Scheme.applyUnder_congr hv]

theorem func_complete {params : List Param} {result ty : Ty} {body : Expr} (ih : Complete body) :
    Complete (.func params result body ty) := by
  intro env x run hr he hx hpl hpres σ Γ G hG hσ hΓ ht
  generalize hxt : x.subst σ = t at ht
  cases ht with
  | @func _ _ typed _ r' _ _ hps hres hbody =>
    obtain ⟨hn, hbpl⟩ := Expr.every_func.mp hpl
    rw [Expr.NoArgsAt] at hG
    obtain ⟨ps, inner, run₁, τ₁, hp, hτ₁, hagree₁, hqs, hip, hinner⟩ :=
      openParams_complete hr he hn.1.params hpres hσ hΓ hps
    obtain ⟨hl₁, hpo, hio⟩ := openParams_leads hp hr he hn.1.params
    obtain ⟨r, run₂, b, run₃, τ, hr₂, hb, hl₂, hro, hτ, hagree₂, hrt⟩ :=
      ih.annotated hl₁.wf hio hn.1.result hbpl hip hG hτ₁ hinner hres hbody
    have hagree := hagree₁.trans hagree₂ hl₁.size
    have hparams : (ps.map (·.ty)).map (Ty.subst τ) = typed.map (·.ty) := by
      rw [← hagree₂.map_subst (List.forall_mem_map.mpr hpo), ← hqs, List.map_map, List.map_map]
      rfl
    refine ⟨_, _, τ, infer_func.mpr ⟨ps, inner, run₁, r, run₂, b, run₃, hp, hr₂, hb, rfl, rfl⟩,
      Run.solvedBy_emit.mpr ⟨hτ, ?_⟩, hagree⟩
    rw [← hagree.subst hx, hxt, Ty.subst_function, hparams, hrt]

theorem call_complete {callee : Expr} {args : List Expr} {ty : Ty} (ihf : Complete callee)
    (iha : ∀ a ∈ args, Complete a) : Complete (.call callee args ty) := by
  intro env x run hr he hx hpl hpres σ Γ G hG hσ hΓ ht
  generalize hxt : x.subst σ = t at ht
  cases ht with
  | @call _ _ _ ts _ _ hcallee hargs =>
    obtain ⟨_, hcpl, hapl⟩ := Expr.every_call.mp hpl
    rw [Expr.NoArgsAt, Expr.noArgsAtList_iff] at hG
    obtain ⟨τ₀, hτ₀, hagree₀, hmap⟩ := alloc_complete hr hσ ts
    rw [hargs.length] at hτ₀ hmap
    have ha := Run.Leads.alloc hr args.length
    have hfresh : ∀ v ∈ (Store.freshList args.length run.store).1, v.Over .whole _ :=
      over_freshList run args.length
    have hfun : (Ty.function (Store.freshList args.length run.store).1 x).Over .whole _ :=
      .function hfresh (hx.mono ha.size)
    obtain ⟨f, run₁, τ₁, hf, hτ₁, hagree₁⟩ := ihf ha.wf (he.mono ha.size) hfun hcpl hpres hG.1
      hτ₀ (hagree₀.rel he hΓ)
      (by rw [Ty.subst_function, hmap, ← hagree₀.subst hx, hxt]; exact hcallee)
    have hl := (infer_leads .whole callee hf ha.wf (he.mono ha.size) hfun
      (Expr.Plain.over hcpl)).1
    have hagree := hagree₀.trans hagree₁ ha.size
    obtain ⟨es, run', τ, hes, hτ, hagree'⟩ := inferEach_complete iha hl.wf
      (he.mono (ha.trans hl).size) (fun v hv => (hfresh v hv).mono hl.size) hapl hpres hG.2 hτ₁
      (hagree.rel he hΓ) (by rw [← hagree₁.map_subst hfresh, hmap]; exact hargs)
    exact ⟨_, run', τ, infer_call.mpr ⟨f, run₁, es, hf, hes, rfl⟩, hτ,
      hagree.trans hagree' (ha.trans hl).size⟩

theorem let_complete {name : String} {annot ty : Ty} {value body : Expr} (ihv : Complete value)
    (ihb : Complete body) : Complete (.letIn name annot value body ty) := by
  intro env x run hr he hx hpl hpres σ Γ G hG hσ hΓ ht
  obtain ⟨hn, hvpl, hbpl⟩ := Expr.every_letIn.mp hpl
  rw [Expr.NoArgsAt] at hG
  generalize hxt : x.subst σ = t at ht
  cases ht with
  | letAlone hfill hvalue =>
    obtain ⟨a, run₁, v, run₂, τ, ha, hv, _, _, hτ, hagree, hat⟩ :=
      ihv.annotated hr he hn.1.annot hvpl hpres hG.1 hσ hΓ hfill hvalue
    refine ⟨_, _, τ, infer_let_alone.mpr ⟨a, run₁, v, run₂, ha, hv, rfl, rfl⟩,
      Run.solvedBy_emit.mpr ⟨hτ, ?_⟩, hagree⟩
    rw [← hagree.subst hx, hxt, hat]
  | letIn hab hfill hvalue hbody =>
    obtain ⟨a, run₁, v, run₂, τ₁, ha, hv, hl, hao, hτ₁, hagree, hat⟩ :=
      ihv.annotated hr he hn.1.annot hvpl hpres hG.1 hσ hΓ hfill hvalue
    obtain ⟨b, run', τ, hb, hτ, hagree'⟩ := ihb hl.wf ((he.mono hl.size).declare (.ofTy hao))
      (hx.mono hl.size) hbpl (hpres.extend _ _) hG.2 hτ₁ (declare_fits (hagree.rel he hΓ) name hat)
      (by rw [← hagree.subst hx, hxt]; exact hbody)
    exact ⟨_, run', τ, (infer_let hab).mpr ⟨a, run₁, v, run₂, b, ha, hv, hb, rfl⟩, hτ,
      hagree.trans hagree' hl.size⟩

theorem array_complete {item ty : Ty} {items : List Expr} (ih : ∀ e ∈ items, Complete e) :
    Complete (.array item items ty) := by
  intro env x run hr he hx hpl hpres σ Γ G hG hσ hΓ ht
  obtain ⟨hn, hipl⟩ := Expr.every_array.mp hpl
  rw [Expr.NoArgsAt, Expr.noArgsAtList_iff] at hG
  generalize hxt : x.subst σ = t at ht
  cases ht with
  | array hfill hitems =>
    obtain ⟨a, run₁, τ₁, ha, hτ₁, hagree₁, hat⟩ := orFresh_complete hr hn.1.item hσ hfill
    obtain ⟨hl₁, hao⟩ := orFresh_leads ha hr hn.1.item
    obtain ⟨es, run₂, τ₂, hes, hτ₂, hagree₂⟩ := inferAll_complete ih hl₁.wf (he.mono hl₁.size) hao
      hipl hpres hG hτ₁ (hagree₁.rel he hΓ) (by rw [hat]; exact hitems)
    have hagree := hagree₁.trans hagree₂ hl₁.size
    refine ⟨_, _, τ₂, infer_array.mpr ⟨a, run₁, es, run₂, ha, hes, rfl, rfl⟩,
      Run.solvedBy_emit.mpr ⟨hτ₂, ?_⟩, hagree⟩
    rw [← hagree.subst hx, hxt, Ty.subst_array, ← hagree₂.subst hao, hat]

theorem seq_complete {effect value : Expr} {ty : Ty} (ihe : Complete effect) (ihv : Complete value) :
    Complete (.seq effect value ty) := by
  intro env x run hr he hx hpl hpres σ Γ G hG hσ hΓ ht
  obtain ⟨_, hepl, hvpl⟩ := Expr.every_seq.mp hpl
  rw [Expr.NoArgsAt] at hG
  generalize hxt : x.subst σ = t at ht
  cases ht with
  | seq heffect hvalue =>
    obtain ⟨d, run₁, τ₁, hd, hl, hτ₁, hagree, _⟩ := ihe.fresh hr he hepl hpres hG.1 hσ hΓ heffect
    obtain ⟨v, run', τ, hv, hτ, hagree'⟩ := ihv hl.wf (he.mono hl.size) (hx.mono hl.size) hvpl
      hpres hG.2 hτ₁ (hagree.rel he hΓ) (by rw [← hagree.subst hx, hxt]; exact hvalue)
    exact ⟨_, run', τ, infer_seq.mpr ⟨d, run₁, v, hd, hv, rfl⟩, hτ, hagree.trans hagree' hl.size⟩

theorem block_complete {items : List Expr} {ty : Ty} (ih : ∀ e ∈ items, Complete e) :
    Complete (.block items ty) := by
  intro env x run hr he hx hpl hpres σ Γ G hG hσ hΓ ht
  rw [Expr.NoArgsAt] at hG
  generalize hxt : x.subst σ = t at ht
  cases ht with
  | block hitems =>
    have hne : items ≠ [] := by
      rintro rfl
      cases hitems
    rw [← hxt] at hitems
    obtain ⟨es, run', τ, hes, hτ, hagree⟩ := inferItems_complete ih hr he hx
      (Expr.every_block.mp hpl).2 hpres hG hσ hΓ hitems
    exact ⟨_, run', τ, infer_block.mpr ⟨hne, es, hes, rfl⟩, hτ, hagree⟩

/-- Inference is complete for every solution of what it starts from. -/
theorem infer_complete (e : Expr) : Complete e := by
  induction e with
  | absent =>
    intro env x run _ _ _ _ _ σ Γ G _ _ _ ht
    cases ht
  | other kind =>
    intro env x run _ _ _ _ _ σ Γ G _ _ _ ht
    cases ht
  | int value ty =>
    intro env x run _ _ _ _ _ σ Γ G _ hσ _ ht
    generalize hτ : x.subst σ = τ at ht
    cases ht
    exact ⟨_, _, σ, infer_int.mpr ⟨rfl, rfl⟩, Run.solvedBy_emit.mpr ⟨hσ, hτ⟩, .refl _ _⟩
  | str value ty =>
    intro env x run _ _ _ _ _ σ Γ G _ hσ _ ht
    generalize hτ : x.subst σ = τ at ht
    cases ht
    exact ⟨_, _, σ, infer_str.mpr ⟨rfl, rfl⟩, Run.solvedBy_emit.mpr ⟨hσ, hτ⟩, .refl _ _⟩
  | var name typeArgs ty => exact var_complete
  | func params result body ty ih => exact func_complete ih
  | call callee args ty ihf iha => exact call_complete ihf iha
  | letIn name annot value body ty ihv ihb => exact let_complete ihv ihb
  | group bs body ty ihf ihb =>
    intro env x run hr he hx hpl hpres σ Γ G hG hσ hΓ ht
    generalize hxt : x.subst σ = t at ht
    cases ht with
    | group _ hfuncs hgen hbody =>
      rw [← hxt] at hbody
      exact group_complete ihf ihb hr he hx hpl hpres hG hσ hΓ hfuncs hgen hbody
  | array item items ty ih => exact array_complete ih
  | seq effect value ty ihe ihv => exact seq_complete ihe ihv
  | block items ty ih => exact block_complete ih

end

/-! ## Programs -/

theorem HasType.isAbsent {Γ : Env} {e : Expr} {t : Ty} (h : HasType Γ e t) : e.isAbsent = false := by
  cases h <;> rfl

/-- A program with a derivable type has a run, which has a solution that gives it this type. -/
theorem inferRoot_complete {env : Env} {e : Expr} {τ : Ty} (he : env.Over .whole 0)
    (hclosed : env.All fun g => g.body.vars = []) (hpres : env.Present) (hpl : e.Plain .whole)
    (hG : e.NoArgsAt fun _ => False) (h : HasType env e τ) :
    ∃ typed t run σ, (inferRoot env e).Yields .start (typed, t) run ∧ run.WF .whole ∧
      t.Over .whole run.store.size ∧ run.SolvedBy σ ∧ t.subst σ = τ := by
  have hstart : Run.start.SolvedBy .var :=
    ⟨fun i u hb => by simp [Run.start] at hb, by simp [Run.start]⟩
  have ha := Run.Leads.alloc (Run.wf_start .whole) 1
  obtain ⟨σ₀, hσ₀, _, hmap⟩ := alloc_complete (Run.wf_start .whole) hstart [τ]
  have hτ : (Ty.var 0).subst σ₀ = τ := (List.cons.inj hmap).1
  have hx : (Ty.var 0).Over .whole (Run.start.alloc 1).store.size := over_fresh .start
  have hΓ : env.Rel (Fits σ₀ fun _ => False) env :=
    (Env.under_closed hclosed σ₀).imp fun x g g' _ hu => hu.fits _ x
  obtain ⟨d, run₁, σ, hd, hσ, hagree⟩ := infer_complete e ha.wf (he.mono (Nat.zero_le _)) hx hpl hpres
    hG hσ₀ hΓ (by rw [hτ]; exact h)
  have hl := (infer_leads .whole e hd ha.wf (he.mono (Nat.zero_le _)) hx hpl.over).1
  obtain ⟨run, hs⟩ := Run.solve_yields hl.wf hσ
  have hl' := Run.Leads.solve hl.wf hs
  have hσ' : run.SolvedBy σ := (Run.solvedBy_solve hl.wf hs).mpr hσ
  have hx' := hx.mono (hl.trans hl').size
  refine ⟨_, _, run, σ, inferRoot_yields.mpr ⟨d, run₁, hd, hs, rfl⟩, hl'.wf,
    hl'.wf.store.resolve hl'.wf.acyclic hx', hσ', ?_⟩
  show (run.store.resolve (.var 0)).subst σ = τ
  rw [Store.subst_resolve hσ'.store, ← hagree.subst hx, hτ]

/-- Inference is complete and finds principal types: a type that is derivable for a program is an
instance of the generic type that is found for it. The environment and the program have no variables,
no type of theirs has a missing part, there are no generic annotations, and no type arguments are
given to the functions of groups. -/
theorem inferGeneric_principal {env : Env} {e : Expr} {τ : Ty} (hpres : env.Present)
    (henv : env.All fun g => g.body.vars = [] ∧ g.body.Whole)
    (hgroups : e.Every fun n => n.generics = [])
    (hannot : e.Every fun n => ∀ u ∈ n.annotations, u ≠ .absent → u.vars = [] ∧ u.Whole)
    (hgiven : e.Every fun n => ∀ u ∈ n.typeArguments, u.vars = [] ∧ u.Whole)
    (hnone : e.NoArgsAt fun _ => False) (h : HasType env e τ) :
    ∃ t g, (Context.new.infer e (some env)).1.result = .ok t ∧
      (Context.new.inferGeneric e (some env)).1.result = .ok g ∧ g.IsInstance τ := by
  have hover : ∀ u : Ty, u.vars = [] ∧ u.Whole → u.Over .whole 0 := fun u hu =>
    ⟨fun _ => hu.2, by simp [hu.1], fun _ _ => trivial⟩
  have hpl : e.Plain .whole := fun n hn => by
    refine ⟨⟨fun u hu hne => hover u (hannot n hn u hu hne), fun u hu => hover u (hgiven n hn u hu),
      fun g hg => ?_⟩, hgroups n hn⟩
    rw [hgroups n hn] at hg
    cases hg
  have hclosed : env.All fun g => g.body.vars = [] := henv.imp fun g hg => hg.1
  have hscope : env.Over .whole 0 := henv.imp fun g hg => ⟨fun _ => hg.2, by simp [hg.1],
    fun _ _ => .inl trivial⟩
  obtain ⟨typed, t, run, σ, hrun, hwf, hto, hσ, hτ⟩ :=
    inferRoot_complete hscope hclosed hpres hpl hnone h
  obtain ⟨⟨g, store?⟩, hc⟩ := (@closing_isOk run.store env t .absent).mpr (.inr hpres)
  refine ⟨t, g, infer_result.mpr ⟨h.isAbsent, typed, run, hrun⟩,
    inferGeneric_result.mpr ⟨h.isAbsent, typed, t, run, store?, hrun, hc⟩, ?_⟩
  have hcl := closing_closes hwf.acyclic hc
  -- the types of the parameters are those that the solution has for the variables they name
  refine ⟨(run.store.generalizable env t).map σ, by rw [List.length_map, hcl.length], ?_⟩
  rw [← Scheme.applyUnder_eq_apply fun _ _ => rfl,
    hcl.applyUnder (by rw [List.length_map, hcl.length]), ← hτ, ← Store.subst_resolve hσ.store t]
  refine Ty.subst_congr fun u hu => ?_
  rw [assign_map (Store.mem_generalizable.mpr ⟨⟨hu, hwf.owns_resolve not_false hto u hu⟩, fun hk => ?_⟩)]
  obtain ⟨x, g', hx, hk⟩ := Env.mem_varsUnder.mp hk
  rw [Store.resolve_eq_subst, Ty.subst_closed (hclosed x g' hx), hclosed x g' hx] at hk
  cases hk

/-- A variable has a type that is found to be an instance of its generic type. -/
theorem HasType.var_of_apply_eq {Γ : Env} {name : String} {typeArgs : Option (List Ty)} {t ty : Ty}
    (g : Scheme) (args : List Ty) (h : Γ.lookup? name = some (some g))
    (hlen : args.length = g.params.length) (hgiven : ∀ given, typeArgs = some given → given = args)
    (happly : g.apply args = t) : HasType Γ (.var name typeArgs ty) t := by
  subst happly
  exact .var h hlen hgiven

/-- The identity of the environment, given its own type argument, is passed to a function of a group
that is the identity too. -/
theorem inferGeneric_principal_group :
    ∃ t g, (Context.new.infer (.group [.fn "f" none [⟨"x", .absent⟩] .absent
          (.call (.var "id" none .absent) [.var "x" none .absent] .absent) .absent]
        (.call (.var "f" none .absent) [.var "id" (some [.int]) .absent] .absent) .absent)
        (some (Env.empty.declareGeneric "id" ["T"] (.function [.con "T" []] (.con "T" []))))).1.result =
          .ok t ∧
      (Context.new.inferGeneric (.group [.fn "f" none [⟨"x", .absent⟩] .absent
          (.call (.var "id" none .absent) [.var "x" none .absent] .absent) .absent]
        (.call (.var "f" none .absent) [.var "id" (some [.int]) .absent] .absent) .absent)
        (some (Env.empty.declareGeneric "id" ["T"] (.function [.con "T" []] (.con "T" []))))).1.result =
          .ok g ∧ g.IsInstance (.function [.int] .int) := by
  have hps : List.Forall₂ Param.Typed [⟨"x", .absent⟩] [⟨"x", .var 0⟩] :=
    .cons ⟨rfl, .inl rfl⟩ .nil
  have hgen : Generalizes (Env.empty.declareGeneric "id" ["T"] (.function [.con "T" []] (.con "T" [])))
      (.function [.var 0] (.var 0)) ⟨["A"], .function [.con "A" []] (.con "A" [])⟩ :=
    ⟨by decide +kernel, by simp, by decide, by decide +kernel⟩
  refine inferGeneric_principal ?_ (Env.All.empty.extend ⟨by rfl, by simp [Ty.function]⟩)
    (by simp [Expr.generics, Binding.func?, Binding.scheme])
    (by simp [Expr.annotations, Binding.func?])
    (by simp [Expr.typeArguments, Binding.func?, Ty.int])
    (by simp [Expr.NoArgsAt, Expr.NoArgsAtList, Expr.NoArgsAtBindings, Expr.NoArgsAtBinding,
      Binding.name]) (.group (by simp [Binding.scheme]) (.cons rfl (.func hps (.inl rfl) ?_) .nil)
        (.cons hgen .nil) ?_)
  · exact Env.Present.extend (fun x => by simp [Env.lookup?, Env.empty]) _ _
  · refine @HasType.call _ _ _ [.var 0] _ _ ?_ (.cons ?_ .nil)
    · exact .var_of_apply_eq ⟨["T"], .function [.con "T" []] (.con "T" [])⟩ [.var 0]
        (by decide +kernel) rfl (by simp) (by decide +kernel)
    · exact .var_of_apply_eq (.mono (.var 0)) [] (by decide +kernel) rfl (by simp) rfl
  · refine @HasType.call _ _ _ [.function [.int] .int] _ _ ?_ (.cons ?_ .nil)
    · exact .var_of_apply_eq ⟨["A"], .function [.con "A" []] (.con "A" [])⟩ [.function [.int] .int]
        (by decide +kernel) rfl (by simp) (by decide +kernel)
    · exact .var_of_apply_eq ⟨["T"], .function [.con "T" []] (.con "T" [])⟩ [.int]
        (by decide +kernel) rfl (by simp) (by decide +kernel)

/-- Not every derivable type is found. A function of a group has more parameters than a derivation may
need type arguments for; a missing type is not equal to itself; and a name without a type leaves
nothing to close a type over. -/
theorem exists_hasType_and_no_result :
    (HasType .empty (.group [.fn "f" none [⟨"x", .absent⟩, ⟨"y", .absent⟩] .absent
          (.var "x" none .absent) .absent] (.var "f" (some [.string]) .absent) .absent)
        (.function [.string, .int] .string) ∧
      (Context.new.infer (.group [.fn "f" none [⟨"x", .absent⟩, ⟨"y", .absent⟩] .absent
          (.var "x" none .absent) .absent] (.var "f" (some [.string]) .absent) .absent)
        (some .empty)).1.result = .error (.error (.arity "f" 2 1))) ∧
    (HasType (Env.empty.declare "x" .absent)
        (.array .absent [.var "x" none .absent, .var "x" none .absent] .absent) (.array .absent) ∧
      (Context.new.infer (.array .absent [.var "x" none .absent, .var "x" none .absent] .absent)
        (some (Env.empty.declare "x" .absent))).1.result =
          .error (.error (.unify (.mismatch .absent .absent)))) ∧
    (HasType (Env.empty.extend "x" none)
        (.func [⟨"y", .absent⟩] .absent (.var "y" none .absent) .absent) (.function [.int] .int) ∧
      (Context.new.inferGeneric (.func [⟨"y", .absent⟩] .absent (.var "y" none .absent) .absent)
        (some (Env.empty.extend "x" none))).1.result = .error (.fault .missingScheme)) := by
  refine ⟨⟨?_, by decide +kernel⟩, ⟨?_, by decide +kernel⟩, ⟨?_, by decide +kernel⟩⟩
  · have hps : List.Forall₂ Param.Typed [⟨"x", .absent⟩, ⟨"y", .absent⟩]
        [⟨"x", .var 0⟩, ⟨"y", .int⟩] := .cons ⟨rfl, .inl rfl⟩ (.cons ⟨rfl, .inl rfl⟩ .nil)
    have hgen : Generalizes .empty (.function [.var 0, .int] (.var 0))
        ⟨["A"], .function [.con "A" [], .int] (.con "A" [])⟩ :=
      ⟨by decide +kernel, by simp, by decide, by decide +kernel⟩
    refine .group (by simp [Binding.scheme]) (.cons rfl (.func hps (.inl rfl) ?_) .nil)
      (.cons hgen .nil) ?_
    · exact .var_of_apply_eq (.mono (.var 0)) [] (by decide +kernel) rfl (by simp) rfl
    · exact .var_of_apply_eq ⟨["A"], .function [.con "A" [], .int] (.con "A" [])⟩ [.string]
        (by decide +kernel) rfl (by simp) (by decide +kernel)
  · have hx : HasType (Env.empty.declare "x" .absent) (.var "x" none .absent) .absent :=
      @HasType.var _ "x" none _ (.mono .absent) [] rfl rfl (by simp)
    exact .array (.inl rfl) (by simp [hx])
  · have hps : List.Forall₂ Param.Typed [⟨"y", .absent⟩] [⟨"y", .int⟩] :=
      .cons ⟨rfl, .inl rfl⟩ .nil
    refine @HasType.func _ _ [⟨"y", .int⟩] _ .int _ _ hps (.inl rfl) ?_
    exact .var_of_apply_eq (.mono .int) [] (by decide +kernel) rfl (by simp) rfl

end Polytype
