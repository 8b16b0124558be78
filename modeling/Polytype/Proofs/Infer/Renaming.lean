import Mathlib
import Polytype.Proofs.Expr.Renaming
import Polytype.Proofs.Infer.Invariant
import Polytype.Proofs.Store.Renaming

/-!
# Inference with other names for constructors

A run on a renamed program does what the run on the program itself does, step by step, as long as the
latter goes well: its store and its equations are the renamed ones (`Run.Renames`), and the types that the
environments give correspond (`Scheme.Renames`). Names that were different and have become the same can
only make more equations hold.

The parameters of a generic annotation are such names. `inferGeneric_reannotate` says what becomes of a
program if they are given new names.
-/

namespace Polytype

open InferM

/-! ## Runs -/

/-- A run with renamed types, and any reports. The first one's bindings have no cycles. -/
structure Run.Renames (h : String → String) (run run' : Run) : Prop where
  acyclic : run.store.Acyclic
  store : run'.store = run.store.rename h
  queue : List.Forall₂ (Constraint.Renames h) run.queue.toList run'.queue.toList

/-- Environments whose types correspond. -/
abbrev Env.Renames (h : String → String) : Env → Env → Prop := Env.Rel fun _ => Scheme.Renames h

namespace Run.Renames

variable {h : String → String} {run run' run₁ : Run}

theorem size (hr : run.Renames h run') : run'.store.size = run.store.size := by
  rw [hr.store, Store.size_rename]

theorem alloc (hr : run.Renames h run') (n : Nat) : (run.alloc n).Renames h (run'.alloc n) := by
  refine ⟨hr.acyclic.freshList n, ?_, hr.queue⟩
  show (Store.freshList n run'.store).2 = (Store.freshList n run.store).2.rename h
  rw [hr.store, Store.rename_freshList]

theorem freshList (hr : run.Renames h run') (n : Nat) :
    (Store.freshList n run'.store).1 = (Store.freshList n run.store).1.map (Ty.rename h) := by
  rw [Store.freshList_fst, Store.freshList_fst, List.map_map, hr.size]
  rfl

theorem emit (hr : run.Renames h run') {a b a' b' : Ty} (ha : a' = a.rename h) (hb : b' = b.rename h)
    (e e' : Expr) : (run.emit a b e).Renames h (run'.emit a' b' e') := by
  refine ⟨hr.acyclic, hr.store, ?_⟩
  show List.Forall₂ _ (run.queue.push _).toList (run'.queue.push _).toList
  rw [Array.toList_push, Array.toList_push]
  exact List.rel_append hr.queue (.cons ⟨ha, hb⟩ .nil)

theorem withLog (hr : run.Renames h run') (log log' : Array Event) :
    (run.withLog log).Renames h (run'.withLog log') := ⟨hr.acyclic, hr.store, hr.queue⟩

theorem withNotes (hr : run.Renames h run') (notes notes' : Array Event × NameSupply) :
    (run.withNotes notes).Renames h (run'.withNotes notes') := ⟨hr.acyclic, hr.store, hr.queue⟩

theorem groups (hr : run.Renames h run') (n n' : Nat) :
    ({ run with groups := n } : Run).Renames h { run' with groups := n' } :=
  ⟨hr.acyclic, hr.store, hr.queue⟩

theorem unify (hr : run.Renames h run') {a b : Ty} (hu : (run.store.unify a b).2 = none) :
    (run'.store.unify (a.rename h) (b.rename h)).2 = none ∧
      (run.withStore (run.store.unify a b).1).Renames h
        (run'.withStore (run'.store.unify (a.rename h) (b.rename h)).1) := by
  have hu' : run.store.unify a b = ((run.store.unify a b).1, none) := Prod.ext rfl hu
  have heq := Store.unify_rename (h := h) hu'
  rw [← hr.store] at heq
  refine ⟨by rw [heq], Store.unify_acyclic hr.acyclic a b, ?_, hr.queue⟩
  show (run'.store.unify (a.rename h) (b.rename h)).1 = (run.store.unify a b).1.rename h
  rw [heq]

theorem solve (hr : run.Renames h run') (hs : InferM.solve.Yields run () run₁) :
    ∃ run₁', InferM.solve.Yields run' () run₁' ∧ run₁.Renames h run₁' := by
  obtain ⟨hn, rfl⟩ := yields_solve.mp hs
  have hs' : Queue.solveList run.store run.queue.toList =
      ((Queue.solveList run.store run.queue.toList).1, none) := Prod.ext rfl hn
  have heq := Queue.solveList_rename hr.queue hs'
  rw [← hr.store] at heq
  refine ⟨_, yields_solve.mpr ⟨by rw [heq], rfl⟩, ?_, ?_, .nil⟩
  · exact (Queue.solveList_acyclic hr.acyclic _).2
  · show (Queue.solveList run'.store run'.queue.toList).1 = _
    rw [heq]
    rfl

end Run.Renames

section

variable {h : String → String} {env env' : Env} {run run' run₁ : Run}

theorem Env.Renames.declare (henv : env.Renames h env') (x : String) (t : Ty) :
    (env.declare x t).Renames h (env'.declare x (t.rename h)) :=
  henv.extend (.mono t) fun _ _ _ _ hs => hs

/-! ## Parts of inference -/

theorem orFresh_renames {a t : Ty} (hy : (orFresh a).Yields run t run₁) (hr : run.Renames h run') :
    ∃ run₁', (orFresh (a.rename h)).Yields run' (t.rename h) run₁' ∧ run₁.Renames h run₁' := by
  rcases yields_orFresh.mp hy with ⟨rfl, rfl, rfl⟩ | ⟨hne, rfl, rfl⟩
  · refine ⟨_, yields_orFresh.mpr (.inl ⟨rfl, ?_, rfl⟩), hr.alloc 1⟩
    rw [hr.size]
    rfl
  · refine ⟨run', yields_orFresh.mpr (.inr ⟨?_, rfl, rfl⟩), hr⟩
    rwa [Ne, Ty.rename_eq_absent]

theorem openParams_renames {ps qs : List Param} {inner : Env}
    (hy : (openParams env ps).Yields run (qs, inner) run₁) (hr : run.Renames h run')
    (henv : env.Renames h env') :
    ∃ inner' run₁', (openParams env' (ps.map (Param.rename h))).Yields run'
        (qs.map (Param.rename h), inner') run₁' ∧ run₁.Renames h run₁' ∧ inner.Renames h inner' := by
  induction ps generalizing env env' run run' qs inner with
  | nil =>
    obtain ⟨⟨⟩, rfl⟩ := openParams_nil.mp hy
    exact ⟨env', run', openParams_nil.mpr ⟨rfl, rfl⟩, hr, henv⟩
  | cons p ps ih =>
    obtain ⟨t, run₂, qs, inner, ht, hrest, ⟨⟩⟩ := openParams_cons.mp hy
    obtain ⟨run₂', ht', hr₂⟩ := orFresh_renames ht hr
    obtain ⟨inner', run₁', hrest', hr₁, hinner⟩ := ih hrest hr₂ (henv.declare p.name t)
    exact ⟨inner', run₁', openParams_cons.mpr ⟨_, run₂', _, _, ht', hrest', rfl⟩, hr₁, hinner⟩

theorem unifyTypeArgs_renames {invalid : Expr} {as vs : List Ty} {u : Unit}
    (hy : (unifyTypeArgs invalid as vs).Yields run u run₁) (hlen : as.length ≤ vs.length)
    (hr : run.Renames h run') (invalid' : Expr) :
    ∃ run₁', (unifyTypeArgs invalid' (as.map (Ty.rename h)) (vs.map (Ty.rename h))).Yields run' u
      run₁' ∧ run₁.Renames h run₁' := by
  induction as generalizing vs run run' with
  | nil =>
    obtain rfl := unifyTypeArgs_nil.mp hy
    exact ⟨run', unifyTypeArgs_nil.mpr rfl, hr⟩
  | cons a as ih =>
    cases vs with
    | nil => cases hlen
    | cons v vs =>
      obtain ⟨hu, hrest⟩ := unifyTypeArgs_cons.mp hy
      obtain ⟨hu', hr₂⟩ := hr.unify hu
      obtain ⟨run₁', hrest', hr₁⟩ := ih hrest (Nat.le_of_succ_le_succ hlen) hr₂
      exact ⟨run₁', unifyTypeArgs_cons.mpr ⟨hu', hrest'⟩, hr₁⟩

/-! ## Inference -/

/-- Where the first expression is inferred, the second is, in corresponding environments and with the
renamed type expected of it. -/
def Alike (h : String → String) (e e' : Expr) : Prop :=
  ∀ {env env' : Env} {x : Ty} {run run' run₁ : Run} {d : Expr}, (infer env x e).Yields run d run₁ →
    run.Renames h run' → env.Renames h env' →
    ∃ d' run₁', (infer env' (x.rename h) e').Yields run' d' run₁' ∧ run₁.Renames h run₁'

theorem inferAll_renames {es es' ds : List Expr} {x : Ty} (hes : List.Forall₂ (Alike h) es es')
    (hy : (inferAll env x es).Yields run ds run₁) (hr : run.Renames h run')
    (henv : env.Renames h env') :
    ∃ ds' run₁', (inferAll env' (x.rename h) es').Yields run' ds' run₁' ∧ run₁.Renames h run₁' := by
  induction hes generalizing run run' ds with
  | nil =>
    obtain ⟨rfl, rfl⟩ := inferAll_nil.mp hy
    exact ⟨[], run', inferAll_nil.mpr ⟨rfl, rfl⟩, hr⟩
  | cons he _ ih =>
    obtain ⟨d, run₂, ds, hd, hds, rfl⟩ := inferAll_cons.mp hy
    obtain ⟨d', run₂', hd', hr₂⟩ := he hd hr henv
    obtain ⟨ds', run₁', hds', hr₁⟩ := ih hds hr₂
    exact ⟨d' :: ds', run₁', inferAll_cons.mpr ⟨d', run₂', ds', hd', hds', rfl⟩, hr₁⟩

theorem inferEach_renames {es es' ds : List Expr} {ts : List Ty}
    (hes : List.Forall₂ (Alike h) es es') (hlen : ts.length = es.length)
    (hy : (inferEach env ts es).Yields run ds run₁) (hr : run.Renames h run')
    (henv : env.Renames h env') :
    ∃ ds' run₁', (inferEach env' (ts.map (Ty.rename h)) es').Yields run' ds' run₁' ∧
      run₁.Renames h run₁' := by
  induction hes generalizing run run' ds ts with
  | nil =>
    obtain ⟨rfl, rfl⟩ := inferEach_nil.mp hy
    exact ⟨[], run', inferEach_nil.mpr ⟨rfl, rfl⟩, hr⟩
  | cons he _ ih =>
    cases ts with
    | nil => cases hlen
    | cons t ts =>
      obtain ⟨d, run₂, ds, hd, hds, rfl⟩ := inferEach_cons.mp hy
      obtain ⟨d', run₂', hd', hr₂⟩ := he hd hr henv
      obtain ⟨ds', run₁', hds', hr₁⟩ := ih (Nat.succ.inj hlen) hds hr₂
      exact ⟨d' :: ds', run₁', inferEach_cons.mpr ⟨d', run₂', ds', hd', hds', rfl⟩, hr₁⟩

/-- The environments after an item correspond. -/
theorem after_renames {e e' d d' : Expr} {x : Ty} {run₁' : Run} (he : e.Renamed h e')
    (hd : (infer env x e).Yields run d run₁)
    (hd' : (infer env' (x.rename h) e').Yields run' d' run₁') (hr : run.Renames h run')
    {Γ Γ' : Env} (hΓ : Γ.Renames h Γ') : (Γ.after d).Renames h (Γ'.after d') := by
  cases hb : e.boundAfter? with
  | none =>
    rw [Env.after_eq_self ((infer_boundAfter hd).trans hb),
      Env.after_eq_self (((infer_boundAfter hd').trans he.boundAfter?).trans hb)]
    exact hΓ
  | some name =>
    obtain ⟨annot, value, ty, rfl⟩ := Expr.boundAfter?_eq_some hb
    cases he with
    | letIn hv habs =>
      cases habs
      obtain ⟨a, _, v, _, ha, _, rfl, _⟩ := infer_let_alone.mp hd
      obtain ⟨a', _, v', _, ha', _, rfl, _⟩ := infer_let_alone.mp hd'
      obtain ⟨_, ha'', _⟩ := orFresh_renames ha hr
      rw [← (ha''.unique ha').1]
      exact hΓ.declare name a

theorem inferItems_renames {es es' ds : List Expr} {x : Ty}
    (hes : List.Forall₂ (fun e e' => Alike h e e' ∧ e.Renamed h e') es es') (hne : es ≠ [])
    (hy : (inferItems env x es).Yields run ds run₁) (hr : run.Renames h run')
    (henv : env.Renames h env') :
    ∃ ds' run₁', (inferItems env' (x.rename h) es').Yields run' ds' run₁' ∧
      run₁.Renames h run₁' := by
  induction hes generalizing env env' run run' ds with
  | nil => exact absurd rfl hne
  | @cons e e' es es' he hes ih =>
    cases hes with
    | nil =>
      obtain ⟨d, hd, rfl⟩ := inferItems_last.mp hy
      obtain ⟨d', run₁', hd', hr₁⟩ := he.1 hd hr henv
      exact ⟨[d'], run₁', inferItems_last.mpr ⟨d', hd', rfl⟩, hr₁⟩
    | cons =>
      obtain ⟨d, run₂, ds, hd, hds, rfl⟩ := inferItems_cons.mp hy
      obtain ⟨d', run₂', hd', hr₂⟩ := he.1 hd (hr.alloc 1) henv
      obtain ⟨ds', run₁', hds', hr₁⟩ := ih (by simp) hds hr₂
        (after_renames he.2 hd hd' (hr.alloc 1) henv)
      rw [Ty.rename_var, ← hr.size] at hd'
      exact ⟨d' :: ds', run₁', inferItems_cons.mpr ⟨d', run₂', ds', hd', hds', rfl⟩, hr₁⟩

/-! ## Groups -/

theorem placeholders_renames {bs bs' : List Binding} {ps : List Scheme}
    (hbs : List.Forall₂ (Binding.Renamed h) bs bs') (hy : (placeholders bs).Yields run ps run₁)
    (hr : run.Renames h run') :
    ∃ ps' run₁', (placeholders bs').Yields run' ps' run₁' ∧ run₁.Renames h run₁' ∧
      List.Forall₂ (Scheme.Renamed h) ps ps' := by
  induction hbs generalizing run run' ps with
  | nil =>
    obtain ⟨rfl, rfl⟩ := placeholders_nil.mp hy
    exact ⟨[], run', placeholders_nil.mpr ⟨rfl, rfl⟩, hr, .nil⟩
  | @cons b b' bs bs' hb _ ih =>
    have hg := hb.scheme
    generalize hs : b.scheme = own at hg
    generalize hs' : b'.scheme = own' at hg
    cases hg with
    | some hg =>
      obtain ⟨qs, hrest, rfl⟩ := (placeholders_given hs).mp hy
      obtain ⟨qs', run₁', hrest', hr₁, hqs⟩ := ih hrest hr
      exact ⟨_ :: qs', run₁', (placeholders_given hs').mpr ⟨qs', hrest', rfl⟩, hr₁, .cons hg hqs⟩
    | none =>
      obtain ⟨qs, hrest, rfl⟩ := (placeholders_open hs).mp hy
      obtain ⟨qs', run₁', hrest', hr₁, hqs⟩ := ih hrest (hr.alloc 1)
      refine ⟨_ :: qs', run₁', (placeholders_open hs').mpr ⟨qs', hrest', rfl⟩, hr₁, .cons ?_ hqs⟩
      rw [hr.size]
      exact .mono (.var run.store.size)

theorem inferBindings_renames {bs bs' ts : List Binding} {ps ps' : List Scheme}
    (hbs : List.Forall₂ (fun b b' => b.Renamed h b' ∧ ∀ f, b.func? = some f → ∀ f', f.Renamed h f' →
      Alike h f f') bs bs')
    (hps : List.Forall₂ (Scheme.Renamed h) ps ps') (hlen : ps.length = bs.length)
    (hy : (inferBindings env ps bs).Yields run ts run₁) (hr : run.Renames h run')
    (henv : env.Renames h env') :
    ∃ ts' run₁', (inferBindings env' ps' bs').Yields run' ts' run₁' ∧ run₁.Renames h run₁' := by
  induction hbs generalizing run run' ps ps' ts with
  | nil =>
    obtain ⟨rfl, rfl⟩ := inferBindings_nil.mp hy
    exact ⟨[], run', inferBindings_nil.mpr ⟨rfl, rfl⟩, hr⟩
  | @cons b b' bs bs' hb _ ih =>
    cases hps with
    | nil => cases hlen
    | cons hp hps =>
      obtain ⟨d, run₂, ds, hd, hds, rfl⟩ := inferBindings_cons.mp hy
      obtain ⟨name, g, params, result, body, ty, qs, r, c, rfl, hf, rfl⟩ :=
        inferBinding_yields.mp hd
      obtain ⟨hb, halike⟩ := hb
      cases hb with
      | @fn _ _ g' _ _ _ ty' _ body' _ hbody =>
        obtain ⟨d', run₂', hd', hr₂⟩ := halike _ rfl _ (@Expr.Renamed.func h params result ty ty' body
          body' hbody) hf hr henv
        obtain ⟨ds', run₁', hds', hr₁⟩ := ih hps (Nat.succ.inj hlen) hds hr₂
        obtain ⟨qs', _, _, r', _, c', _, _, _, _, rfl, _⟩ := infer_func.mp hd'
        rw [← hp.body] at hd'
        exact ⟨_ :: ds', run₁', inferBindings_cons.mpr ⟨_, run₂', ds', inferBinding_yields.mpr
          ⟨name, g', _, _, body', ty', qs', r', c', rfl, hd', rfl⟩, hds', rfl⟩, hr₁⟩

/-- A function of a group is generalised after renaming too. -/
theorem Generalized.renames {s : Store} {p p' g : Scheme} {own own' : Option Scheme}
    {t t' d : Binding} (hg : Generalized s env p own t g d) (hs : s.Acyclic)
    (henv : env.Renames h env') (hp : p.Renamed h p') (hown : Option.Rel (Scheme.Renamed h) own own')
    (ht : t'.IsFn) :
    ∃ g' d', Generalized (s.rename h) env' p' own' t' g' d' ∧ g.Renames h g' := by
  obtain ⟨name, old, params, result, body, ty, rfl, _⟩ := ht
  have hclose : ∀ {scope : Expr} {store? : Option Store},
      closing s env p.body scope = .ok (g, store?) → ∃ g' d', Generalized (s.rename h) env' p' none
        (.fn name old params result body ty) g' d' ∧ g.Renames h g' := by
    intro scope store? hc
    obtain ⟨g', store?', hc', hg⟩ := closing_renames hs henv hc (.func params result body ty)
    rw [← hp.body] at hc'
    cases store?' with
    | none => exact ⟨g', _, .closed hc', hg⟩
    | some store => exact ⟨g', _, .named hc', hg⟩
  cases hg with
  | given =>
    cases hown with
    | some hg => exact ⟨_, _, .given, hg.toRenames⟩
  | closed hc =>
    cases hown
    exact hclose hc
  | named hc =>
    cases hown
    exact hclose hc

theorem GeneralizedAll.renames {s : Store} {bs bs' ts ts' ds : List Binding} {ps ps' gs : List Scheme}
    (hg : GeneralizedAll s env bs ps ts gs ds) (hs : s.Acyclic) (henv : env.Renames h env')
    (hbs : List.Forall₂ (Binding.Renamed h) bs bs') (hps : List.Forall₂ (Scheme.Renamed h) ps ps')
    (hlen : ts'.length = bs'.length) (hfn : ∀ t ∈ ts', t.IsFn) :
    ∃ gs' ds', GeneralizedAll (s.rename h) env' bs' ps' ts' gs' ds' ∧
      List.Forall₂ (Scheme.Renames h) gs gs' := by
  induction hg generalizing bs' ps' ts' with
  | nil =>
    cases hbs
    cases hps
    obtain rfl := List.length_eq_zero_iff.mp hlen
    exact ⟨[], [], .nil, .nil⟩
  | cons hg _ ih =>
    cases hbs with
    | cons hb hbs =>
      cases hps with
      | cons hp hps =>
        cases ts' with
        | nil => cases hlen
        | cons t' ts' =>
          rw [List.forall_mem_cons] at hfn
          obtain ⟨gs', ds', hrest, hgs⟩ := ih hbs hps (Nat.succ.inj hlen) hfn.2
          obtain ⟨g', d', hg', hr⟩ := hg.renames hs henv hp hb.scheme hfn.1
          exact ⟨g' :: gs', d' :: ds', .cons hg' hrest, .cons hr hgs⟩

/-- A group is inferred after renaming if its functions and its body are. -/
theorem group_renames {bs bs' : List Binding} {body body' d : Expr} {x ty : Ty}
    (hbs : List.Forall₂ (fun b b' => b.Renamed h b' ∧ ∀ f, b.func? = some f → ∀ f', f.Renamed h f' →
      Alike h f f') bs bs') (hbody : Alike h body body')
    (hy : (infer env x (.group bs body ty)).Yields run d run₁) (hr : run.Renames h run')
    (henv : env.Renames h env') (ty' : Ty) :
    ∃ d' run₁', (infer env' (x.rename h) (.group bs' body' ty')).Yields run' d' run₁' ∧
      run₁.Renames h run₁' := by
  have hbs' : List.Forall₂ (Binding.Renamed h) bs bs' := hbs.imp fun _ _ hb => hb.1
  have hnames : bs'.map (·.name) = bs.map (·.name) := by
    clear hbs hy
    induction hbs' with
    | nil => rfl
    | cons hb _ ih => rw [List.map_cons, List.map_cons, hb.name_eq, ih]
  obtain ⟨ps, run₂, ts, run₃, run₄, gs, ds, notes, b, hp, ht, hs, hga, hb, rfl⟩ := infer_group_cases hy
  obtain ⟨ps', run₂', hp', hr₂, hps⟩ := placeholders_renames hbs' hp
    (hr.groups (run.groups + 1) (run'.groups + 1))
  have hinside : (env.extendGroup bs ps).Renames h (env'.extendGroup bs' ps') :=
    henv.extendGroup hnames hps fun _ _ _ _ hg => hg.toRenames
  obtain ⟨ts', run₃', ht', hr₃⟩ := inferBindings_renames hbs hps (placeholders_length hp) ht hr₂ hinside
  obtain ⟨run₄', hs', hr₄⟩ := (hr₃.withLog _ (run₃'.log.push (.solving (run'.groups + 1) bs'.length
    run₃'.queue.size))).solve hs
  obtain ⟨hlen, hfn⟩ := inferBindings_isFn ht' (placeholders_length hp')
  obtain ⟨gs', ds', hga', hgs⟩ := hga.renames hr₄.acyclic henv hbs' hps hlen hfn
  rw [← hr₄.store] at hga'
  have houtside : (env.extendGroup bs gs).Renames h (env'.extendGroup bs' gs') :=
    henv.extendGroup hnames hgs fun _ _ _ _ hg => hg
  obtain ⟨notes', hgroup⟩ := @infer_group_of env' (x.rename h) run' bs' ts' ds' body' ty' ps' gs' run₂'
    run₃' run₄' hp' ht' hs' hga'
  obtain ⟨b', run₁', hb', hr₁⟩ := hbody hb (hr₄.withNotes notes notes') houtside
  exact ⟨_, run₁', hgroup hb', hr₁⟩

theorem forall₂_mem {α : Type} {R S : α → α → Prop} {l l' : List α} (hl : List.Forall₂ R l l')
    (hi : ∀ a ∈ l, ∀ b, R a b → S a b) : List.Forall₂ S l l' :=
  ((List.forall₂_and_left l l').mpr ⟨hi, hl⟩).imp fun _ _ hab => hab.1 _ hab.2

theorem var_renames (h : String → String) (name : String) (typeArgs : Option (List Ty)) (ty ty' : Ty) :
    Alike h (.var name typeArgs ty) (.var name (typeArgs.map (List.map (Ty.rename h))) ty') := by
  intro env env' x run run' run₁ d hy hr henv
  obtain ⟨g, run₂, hg, hlen, hu, rfl, rfl⟩ := infer_var.mp hy
  obtain ⟨g', hg', hren⟩ := henv.lookup hg
  have hle : (typeArgs.getD []).length ≤ (Store.freshList g.params.length run.store).1.length := by
    rw [length_freshList]
    cases typeArgs with
    | none => exact Nat.zero_le _
    | some args => exact (hlen args rfl).le
  have hargs : (typeArgs.map (List.map (Ty.rename h))).getD [] =
      (typeArgs.getD []).map (Ty.rename h) := by cases typeArgs <;> rfl
  obtain ⟨run₂', hu', hr₂⟩ := unifyTypeArgs_renames hu hle (hr.alloc g.params.length)
    (.var name (typeArgs.map (List.map (Ty.rename h))) ty')
  rw [← hargs, ← hr.freshList, ← hren.length] at hu'
  refine ⟨_, _, infer_var.mpr ⟨g', run₂', hg', fun args ha => ?_, hu', rfl, rfl⟩, hr₂.emit rfl ?_ _ _⟩
  · obtain ⟨as, has, rfl⟩ := Option.map_eq_some_iff.mp ha
    rw [List.length_map, hlen as has, hren.length]
  · rw [hren.length, hr.freshList, hren.apply_eq _ (length_freshList _ _)]

theorem func_renames {params : List Param} {result : Ty} {body body' : Expr} (ih : Alike h body body')
    (ty ty' : Ty) : Alike h (.func params result body ty)
      (.func (params.map (Param.rename h)) (result.rename h) body' ty') := by
  intro env env' x run run' run₁ d hy hr henv
  obtain ⟨ps, inner, run₂, r, run₃, b, run₄, hp, hr', hb, rfl, rfl⟩ := infer_func.mp hy
  obtain ⟨inner', run₂', hp', hr₂, hinner⟩ := openParams_renames hp hr henv
  obtain ⟨run₃', hr'', hr₃⟩ := orFresh_renames hr' hr₂
  obtain ⟨b', run₄', hb', hr₄⟩ := ih hb hr₃ hinner
  refine ⟨_, _, infer_func.mpr ⟨_, inner', run₂', _, run₃', b', run₄', hp', hr'', hb', rfl, rfl⟩,
    hr₄.emit rfl ?_ _ _⟩
  rw [Ty.rename_function, List.map_map, List.map_map]
  rfl

theorem call_renames {callee callee' : Expr} {args args' : List Expr} (ihf : Alike h callee callee')
    (iha : List.Forall₂ (Alike h) args args') (ty ty' : Ty) :
    Alike h (.call callee args ty) (.call callee' args' ty') := by
  intro env env' x run run' run₁ d hy hr henv
  obtain ⟨f, run₂, es, hf, hes, rfl⟩ := infer_call.mp hy
  have hlen : args'.length = args.length := iha.length_eq.symm
  obtain ⟨f', run₂', hf', hr₂⟩ := ihf hf (hr.alloc args.length) henv
  obtain ⟨es', run₁', hes', hr₁⟩ := inferEach_renames iha (length_freshList _ _) hes hr₂ henv
  rw [Ty.rename_function, ← hr.freshList, ← hlen] at hf'
  rw [← hr.freshList, ← hlen] at hes'
  exact ⟨_, run₁', infer_call.mpr ⟨f', run₂', es', hf', hes', rfl⟩, hr₁⟩

theorem let_renames {name : String} {annot : Ty} {value value' body body' : Expr}
    (hab : body'.isAbsent = body.isAbsent) (ihv : Alike h value value') (ihb : Alike h body body')
    (ty ty' : Ty) : Alike h (.letIn name annot value body ty)
      (.letIn name (annot.rename h) value' body' ty') := by
  intro env env' x run run' run₁ d hy hr henv
  cases hbody : body.isAbsent with
  | true =>
    rw [hbody] at hab
    obtain rfl := Expr.isAbsent_iff.mp hbody
    obtain rfl := Expr.isAbsent_iff.mp hab
    obtain ⟨a, run₂, v, run₃, ha, hv, rfl, rfl⟩ := infer_let_alone.mp hy
    obtain ⟨run₂', ha', hr₂⟩ := orFresh_renames ha hr
    obtain ⟨v', run₃', hv', hr₃⟩ := ihv hv hr₂ henv
    exact ⟨_, _, infer_let_alone.mpr ⟨_, run₂', v', run₃', ha', hv', rfl, rfl⟩, hr₃.emit rfl rfl _ _⟩
  | false =>
    obtain ⟨a, run₂, v, run₃, b, ha, hv, hb, rfl⟩ := (infer_let hbody).mp hy
    obtain ⟨run₂', ha', hr₂⟩ := orFresh_renames ha hr
    obtain ⟨v', run₃', hv', hr₃⟩ := ihv hv hr₂ henv
    obtain ⟨b', run₁', hb', hr₁⟩ := ihb hb hr₃ (henv.declare name a)
    exact ⟨_, run₁', (infer_let (hab.trans hbody)).mpr ⟨_, run₂', v', run₃', b', ha', hv', hb', rfl⟩, hr₁⟩

theorem array_renames {item : Ty} {items items' : List Expr} (ih : List.Forall₂ (Alike h) items items')
    (ty ty' : Ty) : Alike h (.array item items ty) (.array (item.rename h) items' ty') := by
  intro env env' x run run' run₁ d hy hr henv
  obtain ⟨a, run₂, es, run₃, ha, hes, rfl, rfl⟩ := infer_array.mp hy
  obtain ⟨run₂', ha', hr₂⟩ := orFresh_renames ha hr
  obtain ⟨es', run₃', hes', hr₃⟩ := inferAll_renames ih hes hr₂ henv
  exact ⟨_, _, infer_array.mpr ⟨_, run₂', es', run₃', ha', hes', rfl, rfl⟩,
    hr₃.emit rfl (Ty.rename_array h a).symm _ _⟩

theorem seq_renames {effect effect' value value' : Expr} (ihe : Alike h effect effect')
    (ihv : Alike h value value') (ty ty' : Ty) :
    Alike h (.seq effect value ty) (.seq effect' value' ty') := by
  intro env env' x run run' run₁ d hy hr henv
  obtain ⟨f, run₂, v, hf, hv, rfl⟩ := infer_seq.mp hy
  obtain ⟨f', run₂', hf', hr₂⟩ := ihe hf (hr.alloc 1) henv
  obtain ⟨v', run₁', hv', hr₁⟩ := ihv hv hr₂ henv
  rw [Ty.rename_var, ← hr.size] at hf'
  exact ⟨_, run₁', infer_seq.mpr ⟨f', run₂', v', hf', hv', rfl⟩, hr₁⟩

/-- Renamed expressions are inferred alike, if the types of literals keep their names. -/
theorem Expr.Renamed.alike (hint : h "Int" = "Int") (hstr : h "String" = "String") {e e' : Expr}
    (he : e.Renamed h e') : Alike h e e' := by
  induction e generalizing e' with
  | absent => exact fun hy => absurd hy not_infer_absent
  | other kind => exact fun hy => absurd hy not_infer_other
  | int value ty =>
    intro env env' x run run' run₁ d hy hr _
    cases he with
    | int =>
      obtain ⟨rfl, rfl⟩ := infer_int.mp hy
      refine ⟨_, _, infer_int.mpr ⟨rfl, rfl⟩, hr.emit rfl ?_ _ _⟩
      rw [Ty.int, Ty.rename_const, hint]
  | str value ty =>
    intro env env' x run run' run₁ d hy hr _
    cases he with
    | str =>
      obtain ⟨rfl, rfl⟩ := infer_str.mp hy
      refine ⟨_, _, infer_str.mpr ⟨rfl, rfl⟩, hr.emit rfl ?_ _ _⟩
      rw [Ty.string, Ty.rename_const, hstr]
  | var name typeArgs ty =>
    cases he with
    | var => exact var_renames h name typeArgs ty _
  | func params result body ty ih =>
    cases he with
    | func hbody => exact func_renames (ih hbody) _ _
  | call callee args ty ihf iha =>
    cases he with
    | call hcallee hargs =>
      exact call_renames (ihf hcallee) (forall₂_mem hargs fun a ha a' hren => iha a ha hren) _ _
  | letIn name annot value body ty ihv ihb =>
    cases he with
    | letIn hvalue hbody => exact let_renames hbody.isAbsent (ihv hvalue) (ihb hbody) _ _
  | group bs body ty ihf ihb =>
    intro env env' x run run' run₁ d hy hr henv
    cases he with
    | group hbs hbody =>
      exact group_renames (forall₂_mem hbs fun b hb b' hren => ⟨hren, fun f hf f' => ihf b hb f hf⟩)
        (ihb hbody) hy hr henv _
  | array item items ty ih =>
    cases he with
    | array hitems => exact array_renames (forall₂_mem hitems fun a ha a' hren => ih a ha hren) _ _
  | seq effect value ty ihe ihv =>
    cases he with
    | seq heffect hvalue => exact seq_renames (ihe heffect) (ihv hvalue) _ _
  | block items ty ih =>
    intro env env' x run run' run₁ d hy hr henv
    cases he with
    | block hitems =>
      obtain ⟨hne, es, hes, rfl⟩ := infer_block.mp hy
      obtain ⟨es', run₁', hes', hr₁⟩ := inferItems_renames
        (forall₂_mem hitems fun a ha a' hren => ⟨ih a ha hren, hren⟩) hne hes hr henv
      refine ⟨_, run₁', infer_block.mpr ⟨?_, es', hes', rfl⟩, hr₁⟩
      rintro rfl
      cases hitems
      exact hne rfl

end

/-! ## Programs -/

/-- A scheme mentions one of some names, not as a parameter of its own. -/
def Scheme.Mentions (g : Scheme) (names : List String) : Prop :=
  ∃ n ∈ names, n ∈ g.body.consts ∧ n ∉ g.params

/-- None of some names is that of a constructor without arguments in an environment, in a program or of
its literals. -/
structure Unused (names : List String) (env : Env) (e : Expr) : Prop where
  literals : "Int" ∉ names ∧ "String" ∉ names
  env : env.All fun g => ¬ g.Mentions names
  expr : e.Every fun n => ∀ c ∈ n.constants, c ∉ names

theorem Run.Renames.start (h : String → String) : Run.start.Renames h .start :=
  ⟨Store.acyclic_empty, by simp [Run.start, Store.rename, Store.empty], .nil⟩

/-- The generic type that is found for a renamed program. It is the one found before if that has none of
the constructors that the renaming changes. -/
theorem inferGeneric_renames {h : String → String} (hint : h "Int" = "Int")
    (hstr : h "String" = "String") (hidem : ∀ c, h (h c) = h c) {e e' : Expr} (he : e.Renamed h e')
    {env : Env} (henv : env.Renames h env) {g : Scheme}
    (hg : (Context.new.inferGeneric e (some env)).1.result = .ok g) :
    ∃ g', (Context.new.inferGeneric e' (some env)).1.result = .ok g' ∧
      (g' = g ↔ ∀ c ∈ g.body.consts, c ∉ g.params → h c = c) := by
  obtain ⟨habs, typed, t, run, store?, hroot, hc⟩ := inferGeneric_result.mp hg
  obtain ⟨d, run₁, hd, hs, heq⟩ := inferRoot_yields.mp hroot
  cases heq
  obtain ⟨d', run₁', hd', hr₁⟩ := he.alike hint hstr hd ((Run.Renames.start h).alloc 1) henv
  obtain ⟨run', hs', hr⟩ := hr₁.solve hs
  obtain ⟨g', store?', hc', _⟩ := closing_renames hr.acyclic henv hc .absent
  have hroot' := inferRoot_yields.mpr ⟨d', run₁', hd', hs', rfl⟩
  have ht : run'.store.resolve (.var 0) = (run.store.resolve (.var 0)).rename h := by
    rw [hr.store, ← Ty.rename_var h 0, Store.resolve_rename, Ty.rename_var]
  rw [← hr.store] at hc'
  refine ⟨g', inferGeneric_result.mpr ⟨he.isAbsent.trans habs, _, _, run', store?', hroot', ?_⟩, ?_⟩
  · show closing run'.store env (run'.store.resolve (.var 0)) .absent = _
    rw [ht]
    exact hc'
  · rw [hr.store] at hc'
    exact (closing_closes hr.acyclic hc).eq_iff (closing_closes (hr.acyclic.rename h) hc') henv
      hidem

/-- One direction of giving other names to the parameters of an annotation, for a renaming that takes
the one annotation to the other. -/
theorem inferGeneric_reannotated {g₁ g₂ : Scheme} {names : List String} {h : String → String}
    (hfix : ∀ c, h c = c ↔ c ∉ names) (hidem : ∀ c, h (h c) = h c) (hren : g₂.Renamed h g₁) {e e' : Expr}
    (hedit : e.Reannotates g₁ g₂ e') {env : Env} (hun : Unused names env e) {g : Scheme}
    (hg : (Context.new.inferGeneric e' (some env)).1.result = .ok g) :
    ∃ g', (Context.new.inferGeneric e (some env)).1.result = .ok g' ∧
      (g' = g ↔ ¬ g.Mentions names) := by
  have hkeeps : e.Every (Expr.Keeps h) := hun.expr.imp fun n hn c hc => (hfix c).mpr (hn c hc)
  have henv : env.Renames h env := by
    intro x
    cases hx : env.lookup? x with
    | none => exact .none
    | some o =>
      cases o with
      | none => exact .some .none
      | some s =>
        refine .some (.some (.self fun c hc hp => (hfix c).mpr fun hm => ?_))
        exact hun.env x s hx ⟨c, hm, hc, hp⟩
  obtain ⟨g', hg', hiff⟩ := inferGeneric_renames ((hfix _).mpr hun.literals.1)
    ((hfix _).mpr hun.literals.2) hidem (hedit.renamed hren hkeeps) henv hg
  refine ⟨g', hg', hiff.trans ⟨fun hc => ?_, fun hc c hb hp => (hfix c).mpr fun hm => ?_⟩⟩
  · rintro ⟨c, hm, hb, hp⟩
    exact (hfix c).mp (hc c hb hp) hm
  · exact hc ⟨c, hm, hb, hp⟩

/-- What becomes of a program `e` when the parameters of one of its generic annotations are given new
names, which makes it `e'`. If `e'` is accepted then so is `e`; and if the old names are not used for
anything else, the other way round. The generic types that are found are the same just if none of the
names has got into them. -/
theorem inferGeneric_reannotate {env : Env} {e e' : Expr} {annot : Scheme} {names : List String}
    (hedit : e.Reannotates annot (annot.renameParams names) e')
    (hlen : names.length = annot.params.length) (hdup : names.Nodup)
    (hnew : ∀ q ∈ names, q ∉ annot.params) (hun : Unused names env e) :
    (∀ g', (Context.new.inferGeneric e' (some env)).1.result = .ok g' →
      ∃ g, (Context.new.inferGeneric e (some env)).1.result = .ok g ∧
        (g = g' ↔ ¬ g'.Mentions names)) ∧
    (Unused annot.params env e' →
      ∀ g, (Context.new.inferGeneric e (some env)).1.result = .ok g →
        ∃ g', (Context.new.inferGeneric e' (some env)).1.result = .ok g' ∧
          (g' = g ↔ ¬ g.Mentions annot.params)) := by
  have hold : ∀ p ∈ annot.params, p ∉ names := fun p hp hq => hnew p hq hp
  have hbody : ∀ q ∈ names, q ∉ annot.body.consts := by
    obtain ⟨n, hn, hconst⟩ := hedit.exists_node hun.expr
    intro q hq hc
    refine hconst q (List.mem_flatMap.mpr ⟨annot.body, ?_, hc⟩) hq
    exact List.mem_append_right _ (List.mem_map_of_mem hn)
  constructor
  · intro g' hg'
    exact inferGeneric_reannotated (renameTo_eq_self_iff hlen.symm hold) (renameTo_idem hlen.symm hold)
      (Scheme.renamed_of_renameParams hlen hdup hbody) hedit hun hg'
  · intro hun' g hg
    exact inferGeneric_reannotated (renameTo_eq_self_iff hlen hnew) (renameTo_idem hlen hnew)
      (Scheme.renamed_renameParams hlen hdup hbody) hedit.symm hun' hg

/-- A function annotated with the parameter `p`, around one that gives back its argument. -/
def nestedGroups (p : String) : Expr :=
  .group [.fn "f" (some ⟨[p], .function [.con p []] (.con p [])⟩) [⟨"x", .absent⟩] .absent
      (.group [.fn "g" none [⟨"y", .absent⟩] .absent (.var "x" none .absent) .absent]
        (.call (.var "g" none .absent) [.int 1 .absent] .absent) .absent) .absent]
    (.array .absent [.var "f" none .absent] .absent) .absent

theorem nestedGroups_reannotates :
    (nestedGroups "T").Reannotates ⟨["T"], .function [.con "T" []] (.con "T" [])⟩
      (Scheme.renameParams ⟨["T"], .function [.con "T" []] (.con "T" [])⟩ ["U"]) (nestedGroups "U") :=
  .here (@Expr.Regroups.intro _ _ [] [] _ _ _ _ _ _ _)

theorem nestedGroups_unused {p q : String} (hp : p ≠ q) (hi : q ≠ "Int") (hs : q ≠ "String") :
    Unused [q] .empty (nestedGroups p) := by
  refine ⟨⟨?_, ?_⟩, .empty, ?_⟩
  · rw [List.mem_singleton]
    exact hi.symm
  · rw [List.mem_singleton]
    exact hs.symm
  · simp [nestedGroups, Expr.constants, Expr.annotations, Expr.typeArguments, Expr.generics,
      Binding.func?, Binding.scheme, Ty.function, Ty.consts_con, hp]

/-- Both ways of naming the parameter of `nestedGroups` give the same generic type. -/
theorem inferGeneric_reannotate_nested :
    (∃ g, (Context.new.inferGeneric (nestedGroups "T") (some .empty)).1.result = .ok g ∧
      (g = ⟨["A"], .array (.function [.con "A" []] (.con "A" []))⟩ ↔
        ¬ Scheme.Mentions ⟨["A"], .array (.function [.con "A" []] (.con "A" []))⟩ ["U"])) ∧
    (Context.new.inferGeneric (nestedGroups "U") (some .empty)).1.result =
      .ok ⟨["A"], .array (.function [.con "A" []] (.con "A" []))⟩ := by
  obtain ⟨hback, hforth⟩ := inferGeneric_reannotate nestedGroups_reannotates rfl (by decide)
    (by decide) (nestedGroups_unused (by decide) (by decide) (by decide))
  refine ⟨hback _ (by decide +kernel), ?_⟩
  obtain ⟨g', hg', hiff⟩ := hforth (nestedGroups_unused (by decide) (by decide) (by decide))
    ⟨["A"], .array (.function [.con "A" []] (.con "A" []))⟩ (by decide +kernel)
  rw [hg', hiff.mpr (by simp [Scheme.Mentions, Ty.function, Ty.array, Ty.consts_con])]

-- a parameter with the name of a constructor is that constructor, inside the function
example : (Context.new.inferGeneric (.group [.fn "f"
      (some ⟨["Int"], .function [.int] .int⟩) [⟨"x", .absent⟩] .absent
      (.seq (.array .absent [.var "x" none .absent, .int 1 .absent] .absent) (.var "x" none .absent)
        .absent) .absent] (.var "f" none .absent) .absent) (some .empty)).1.result =
    .ok ⟨["A"], .function [.con "A" []] (.con "A" [])⟩ := by
  decide +kernel

-- a parameter leaves its function through a variable of the scope around
example : (Context.new.inferGeneric (.func [⟨"x", .absent⟩] .absent (.group [.fn "f"
      (some ⟨["T"], .function [.con "T" []] (.con "T" [])⟩) [⟨"y", .absent⟩] .absent
      (.seq (.array .absent [.var "x" none .absent, .var "y" none .absent] .absent)
        (.var "y" none .absent) .absent) .absent] (.var "x" none .absent) .absent) .absent)
      (some .empty)).1.result = .ok (.mono (.function [.con "T" []] (.con "T" []))) := by
  decide +kernel

end Polytype
