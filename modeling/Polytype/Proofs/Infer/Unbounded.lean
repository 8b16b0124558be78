import Mathlib
import Polytype.Proofs.Infer.Paths
import Polytype.Proofs.NameSupply.Requests
import Polytype.Proofs.Store.Termination

/-!
# Inference without budgets

The searches of inference carry budgets. `Traversals.unbounded` makes them without: bindings are followed
and names are drawn as long as there are any, and a search that does not end is a fault. Where the bindings
have no cycle, each search ends and finds what the search with a budget finds (`Traversals.Exact`).

Inference keeps the bindings free of cycles. So it does the same with any exact searches, step by step
(`infer_agrees`), and a call has the same outcome and leaves the same state (`Context.calls_exact`): no
budget is ever used up, and every search of a call ends.
-/

namespace Polytype

open InferM

/-! ## Searches -/

/-- The searches without budgets. -/
@[reducible] noncomputable def Traversals.unbounded : Traversals where
  unify s a b := (Store.unifyLoop a b s).getD (s, some (.broken .endless))
  resolve s t := (s.resolveLoop t).elim (.error .endless) .ok
  collect s vs t := (s.collectLoop vs t).elim (.error .endless) .ok
  nextName names t := (names.search t).elim (.error .endless) .ok

/-- Where bindings have no cycle, searches end, with the results of those with budgets. -/
structure Traversals.Exact (T : Traversals) : Prop where
  unify : ∀ {s : Store}, s.Acyclic → ∀ a b, T.unify s a b = s.unify a b
  resolve : ∀ {s : Store}, s.Acyclic → T.resolve s = fun t => .ok (s.resolve t)
  collect : ∀ {s : Store}, s.Acyclic → ∀ vs t, T.collect s vs t = .ok (s.collect vs t)
  nextName : ∀ names t, T.nextName names t = .ok (names.takeAvoiding t)

theorem Traversals.unbounded_exact : Traversals.unbounded.Exact where
  unify hs a b := congrArg (Option.getD · _) (hs.unifyLoop_eq a b)
  resolve hs := funext fun t => congrArg (Option.elim · _ _) (hs.resolveLoop_eq t)
  collect hs vs t := congrArg (Option.elim · _ _) (hs.collectLoop_eq vs t)
  nextName names t := congrArg (Option.elim · _ _) (names.search_eq_takeAvoiding t)

/-- A variable may be bound anew to a type without variables. -/
theorem Store.Acyclic.bind?_closed {s s' : Store} (hs : s.Acyclic) {id : Int} {t : Ty} (ht : t.vars = [])
    (h : s.bind? id t = some s') : s'.Acyclic := by
  rw [bind?] at h
  split at h
  · rename_i hown
    cases h
    have hmentions : ∀ i j, (s.bind id t).Mentions i j → s.Mentions i j := by
      rintro i j ⟨u, hu, hj⟩
      by_cases hi : i = id
      · subst hi
        have hne : t ≠ .var i := by
          rintro rfl
          simp at ht
        rw [binding?_bind_self hown hne] at hu
        cases hu
        rw [ht] at hj
        cases hj
      · rw [binding?_bind_of_ne t hi] at hu
        exact ⟨u, hu, hj⟩
    exact fun i hi => hs i (Relation.TransGen.mono hmentions i i hi)
  · cases h

/-- Naming variables closes no cycle. -/
theorem nameVars_acyclic {t : Ty} {ids : List Int} {names : NameSupply} {s : Store}
    {r : List String × Store × NameSupply} (hs : s.Acyclic) (h : nameVars t ids names s = .ok r) :
    r.2.1.Acyclic := by
  induction ids generalizing names s r with
  | nil =>
    cases h
    exact hs
  | cons id ids ih =>
    rw [nameVars] at h
    obtain ⟨⟨name, names'⟩, _, h⟩ := bind_eq_ok.mp h
    cases hb : s.bind? id (.con name []) with
    | none =>
      simp only [hb] at h
      cases h
    | some s' =>
      simp only [hb] at h
      obtain ⟨⟨params, closed, names''⟩, hrest, h⟩ := bind_eq_ok.mp h
      cases h
      have hclosed := ih (hs.bind?_closed (by simp) hb) hrest
      exact hclosed

/-- The store that names the parameters of a generic type has no cycle. -/
theorem closing_acyclic {s s' : Store} {env : Env} {t : Ty} {scope : Expr} {g : Scheme} (hs : s.Acyclic)
    (h : closing s env t scope = .ok (g, some s')) : s'.Acyclic := by
  obtain ⟨names, hc⟩ := closing_eq_ok.mp h .new
  simp only [closeOver] at hc
  obtain ⟨resolved, _, hc⟩ := bind_eq_ok.mp hc
  obtain ⟨free, _, hc⟩ := bind_eq_ok.mp hc
  split at hc
  · cases hc
  · obtain ⟨bound, _, hc⟩ := bind_eq_ok.mp hc
    split at hc
    · cases hc
    · obtain ⟨named, hnamed, hc⟩ := bind_eq_ok.mp hc
      obtain ⟨body, _, hc⟩ := bind_eq_ok.mp hc
      cases hc
      exact nameVars_acyclic hs hnamed

/-! ## Actions -/

/-- From a state on, an action does the same as another, and leaves bindings without cycles behind. -/
structure Agrees {α : Type} (run : Run) (m m' : InferM α) : Prop where
  same : m run = m' run
  acyclic : ∀ {a run'}, m'.Yields run a run' → run'.store.Acyclic

namespace Agrees

variable {α β : Type} {run : Run} {m m' : InferM α}

theorem bind {f f' : α → InferM β} (h : Agrees run m m')
    (hf : ∀ a run₁, m'.Yields run a run₁ → run₁.store.Acyclic → Agrees run₁ (f a) (f' a)) :
    Agrees run (m >>= f) (m' >>= f') := by
  constructor
  · show EStateM.bind m f run = EStateM.bind m' f' run
    rw [EStateM.bind, EStateM.bind, h.same]
    cases hm : m' run with
    | ok a run₁ => exact (hf a run₁ hm (h.acyclic hm)).same
    | error stop run₁ => rfl
  · intro b run' hb
    obtain ⟨a, run₁, ha, hb⟩ := yields_bind.mp hb
    exact (hf a run₁ ha (h.acyclic ha)).acyclic hb

theorem get_bind {f f' : Run → InferM β} (h : Agrees run (f run) (f' run)) :
    Agrees run (get >>= f) (get >>= f') :=
  ⟨h.same, h.acyclic⟩

/-- An action that makes no search agrees with itself. -/
theorem refl (h : ∀ {a run'}, m.Yields run a run' → run'.store.Acyclic) : Agrees run m m := ⟨rfl, h⟩

theorem path {root : Expr} (hs : run.store.Acyclic)
    (h : ∀ {a run'}, m.Yields run a run' → run.Path root run') : Agrees run m m :=
  .refl fun hm => (h hm).acyclic hs

theorem pure (hs : run.store.Acyclic) (a : α) : Agrees run (pure a) (pure a) := by
  refine .refl fun h => ?_
  obtain ⟨_, rfl⟩ := yields_pure.mp h
  exact hs

theorem lift (hs : run.store.Acyclic) (x : Except Fault α) : Agrees run (lift x) (lift x) := by
  refine .refl fun h => ?_
  obtain ⟨_, rfl⟩ := yields_lift.mp h
  exact hs

theorem throw (stop : Stop) : Agrees run (throw stop : InferM α) (throw stop) :=
  .refl fun h => absurd h not_yields_throw

theorem fail (e : InferError) (x : Expr) : Agrees run (fail e x : InferM α) (fail e x) :=
  .refl fun h => absurd h not_yields_fail

theorem modify {f : Run → Run} (hs : (f run).store.Acyclic) : Agrees run (modify f) (modify f) := by
  refine .refl fun h => ?_
  obtain rfl := yields_modify.mp h
  exact hs

theorem fresh (hs : run.store.Acyclic) : Agrees run fresh fresh := by
  refine .refl fun h => ?_
  obtain ⟨_, rfl⟩ := yields_fresh.mp h
  exact hs.freshList 1

theorem freshList (hs : run.store.Acyclic) (n : Nat) : Agrees run (freshList n) (freshList n) := by
  refine .refl fun h => ?_
  obtain ⟨_, rfl⟩ := yields_freshList.mp h
  exact hs.freshList n

theorem instantiate (hs : run.store.Acyclic) (g : Scheme) : Agrees run (instantiate g) (instantiate g) := by
  refine .refl fun h => ?_
  obtain ⟨_, rfl⟩ := yields_instantiate.mp h
  exact hs.freshList _

theorem orFresh (hs : run.store.Acyclic) (t : Ty) : Agrees run (orFresh t) (orFresh t) :=
  @path _ _ _ .absent hs orFresh_path

theorem openParams (hs : run.store.Acyclic) {env : Env} (ps : List Param) :
    Agrees run (openParams env ps) (openParams env ps) :=
  @path _ _ _ .absent hs openParams_path

theorem placeholders (hs : run.store.Acyclic) (bs : List Binding) :
    Agrees run (placeholders bs) (placeholders bs) :=
  @path _ _ _ .absent hs placeholders_path

theorem emit_pure (hs : run.store.Acyclic) {a b : Ty} {x : Expr} (e : α) :
    Agrees run (do InferM.emit a b x; return e) (do InferM.emit a b x; return e) :=
  .bind (.modify hs) fun _ _ _ h => .pure h e

theorem call {c : Context} (h : Agrees c.reset.run m m') (e : Expr) : c.call e m = c.call e m' := by
  rw [Context.call, Context.call, EStateM.run, EStateM.run, h.same]

end Agrees

/-! ## Steps of inference -/

section

variable [T : Traversals] {run : Run} {env : Env}

theorem Agrees.unify (hT : T.Exact) (hs : run.store.Acyclic) (a b : Ty) (x : Expr) :
    Agrees run (InferM.unify a b x) (@InferM.unify .bounded a b x) := by
  refine ⟨?_, fun h => ?_⟩
  · have hunify : Traversals.unify run.store a b = Traversals.bounded.unify run.store a b := hT.unify hs a b
    simp only [InferM.unify, get_bind_run, hunify]
  · obtain ⟨_, rfl⟩ := yields_unify.mp h
    exact Store.unify_acyclic hs a b

theorem solveList_exact (hT : T.Exact) (cs : List Constraint) :
    ∀ {s : Store}, s.Acyclic → Queue.solveList s cs = @Queue.solveList .bounded s cs := by
  induction cs with
  | nil => exact fun _ => rfl
  | cons c cs ih =>
    intro s hs
    have hnext := Store.unify_acyclic hs c.expected c.actual
    simp only [Queue.solveList, hT.unify hs, Traversals.unify_eq]
    generalize s.unify c.expected c.actual = r at hnext
    obtain ⟨s', error⟩ := r
    cases error with
    | none => exact ih hnext
    | some e => rfl

theorem Agrees.solveFor (hT : T.Exact) (hs : run.store.Acyclic) (x : Expr) :
    Agrees run (solveFor x) (@InferM.solveFor .bounded x) := by
  refine ⟨?_, fun h => ?_⟩
  · simp only [InferM.solveFor, get_bind_run, Queue.solve, solveList_exact hT _ hs]
  · obtain ⟨_, rfl⟩ := yields_solveFor.mp h
    exact (Queue.solveList_acyclic hs _).2

theorem freeVars_exact (hT : T.Exact) {s : Store} (hs : s.Acyclic) :
    env.freeVars s = @Env.freeVars .bounded env s := by
  have hentry : collectEntry s = @collectEntry .bounded s := by
    funext vs entry
    obtain ⟨name, g⟩ := entry
    cases g with
    | none => rfl
    | some g => exact hT.collect hs vs g.body
  rw [Env.freeVars, hentry]
  rfl

theorem nameVars_exact (hT : T.Exact) (t : Ty) (ids : List Int) :
    ∀ names s, nameVars t ids names s = @nameVars .bounded t ids names s := by
  induction ids with
  | nil => exact fun _ _ => rfl
  | cons id ids ih =>
    intro names s
    simp only [nameVars, hT.nextName, ih]
    rfl

theorem closeOver_exact (hT : T.Exact) {s : Store} (hs : s.Acyclic) (names : NameSupply) (t : Ty)
    (scope : Expr) : closeOver s names env t scope = @closeOver .bounded s names env t scope := by
  simp only [closeOver, hT.resolve hs, hT.collect hs, freeVars_exact hT hs, nameVars_exact hT]
  refine bind_congr (x := Except.ok (s.resolve t)) fun resolved => ?_
  refine bind_congr (x := Except.ok (s.collect .empty resolved)) fun free => ?_
  split
  · rfl
  · refine bind_congr fun bound => ?_
    split
    · rfl
    · refine bind_congr_ok fun named hnamed => ?_
      rw [hT.resolve (nameVars_acyclic hs hnamed)]
      rfl

theorem Agrees.close (hT : T.Exact) (hs : run.store.Acyclic) (t : Ty) (scope : Expr) :
    Agrees run (close env t scope) (@InferM.close .bounded env t scope) := by
  refine ⟨?_, fun h => ?_⟩
  · simp only [InferM.close, get_bind_run, closeOver_exact hT hs]
  · obtain ⟨_, _, rfl⟩ := yields_close.mp h
    exact hs

theorem Agrees.unifyTypeArgs (hT : T.Exact) (x : Expr) (as vs : List Ty) :
    ∀ {run : Run}, run.store.Acyclic →
      Agrees run (unifyTypeArgs x as vs) (@Polytype.unifyTypeArgs .bounded x as vs) := by
  induction as generalizing vs with
  | nil =>
    intro run hs
    simp only [Polytype.unifyTypeArgs]
    exact .pure hs ()
  | cons a as ih =>
    intro run hs
    cases vs with
    | nil => exact .throw _
    | cons v vs =>
      simp only [Polytype.unifyTypeArgs]
      exact .bind (.unify hT hs a v x) fun _ _ _ h => ih vs h

theorem Agrees.generalize (hT : T.Exact) (hs : run.store.Acyclic) (own : Option Scheme) (p : Scheme)
    (b : Binding) :
    Agrees run (generalize env own p b) (@Polytype.generalize .bounded env own p b) := by
  cases b with
  | missing name g => exact .throw _
  | fn name old params result body ty =>
    cases own with
    | some g => exact .pure hs _
    | none =>
      simp only [Polytype.generalize]
      refine .bind (.close hT hs _ _) ?_
      rintro ⟨g, named⟩ run₁ hclose hs₁
      obtain ⟨hclosing, _, rfl⟩ := yields_close.mp hclose
      cases named with
      | none => exact .pure hs₁ _
      | some store =>
        have hstore := closing_acyclic hs hclosing
        simp only [hT.resolve hstore]
        exact .bind (.lift hs₁ _) fun _ _ _ h => .pure h _

theorem Agrees.generalizeAll (hT : T.Exact) (group : Nat) (outside : Env) (bs : List Binding) :
    ∀ {run : Run}, run.store.Acyclic → ∀ env ps ts,
      Agrees run (generalizeAll group outside env bs ps ts)
        (@Polytype.generalizeAll .bounded group outside env bs ps ts) := by
  induction bs with
  | nil =>
    intro run hs env ps ts
    simp only [Polytype.generalizeAll]
    exact .pure hs _
  | cons b bs ih =>
    intro run hs env ps ts
    cases ps with
    | nil => exact .throw _
    | cons p ps =>
      cases ts with
      | nil => exact .throw _
      | cons t ts =>
        simp only [Polytype.generalizeAll]
        refine .bind (.generalize hT hs _ p t) fun r run₁ _ hs₁ => ?_
        refine .bind (.modify hs₁) fun _ run₂ _ hs₂ => ?_
        exact .bind (ih hs₂ _ ps ts) fun _ _ _ hs₃ => .pure hs₃ _

/-- Inference of an expression does the same with the searches as with budgets. -/
def Exact (T : Traversals) (e : Expr) : Prop :=
  ∀ ⦃env : Env⦄ ⦃t : Ty⦄ ⦃run : Run⦄, run.store.Acyclic →
    Agrees run (@infer T env t e) (@infer .bounded env t e)

theorem inferAll_agrees {t : Ty} {es : List Expr} (ih : ∀ e ∈ es, Exact T e) :
    ∀ {run : Run}, run.store.Acyclic →
      Agrees run (inferAll env t es) (@inferAll .bounded env t es) := by
  induction es with
  | nil =>
    intro run hs
    simp only [inferAll]
    exact .pure hs _
  | cons e es ihs =>
    intro run hs
    rw [List.forall_mem_cons] at ih
    simp only [inferAll]
    exact .bind (ih.1 hs) fun _ _ _ hs₁ => .bind (ihs ih.2 hs₁) fun _ _ _ hs₂ => .pure hs₂ _

theorem inferEach_agrees {es : List Expr} (ih : ∀ e ∈ es, Exact T e) :
    ∀ {ts : List Ty} {run : Run}, run.store.Acyclic →
      Agrees run (inferEach env ts es) (@inferEach .bounded env ts es) := by
  induction es with
  | nil =>
    intro ts run hs
    simp only [inferEach]
    exact .pure hs _
  | cons e es ihs =>
    intro ts run hs
    rw [List.forall_mem_cons] at ih
    cases ts with
    | nil =>
      simp only [inferEach]
      exact .throw _
    | cons t ts =>
      simp only [inferEach]
      exact .bind (ih.1 hs) fun _ _ _ hs₁ => .bind (ihs ih.2 hs₁) fun _ _ _ hs₂ => .pure hs₂ _

theorem inferItems_agrees {t : Ty} {es : List Expr} (ih : ∀ e ∈ es, Exact T e) :
    ∀ {env : Env} {run : Run}, run.store.Acyclic →
      Agrees run (inferItems env t es) (@inferItems .bounded env t es) := by
  induction es with
  | nil =>
    intro env run hs
    simp only [inferItems]
    exact .pure hs _
  | cons e es ihs =>
    intro env run hs
    rw [List.forall_mem_cons] at ih
    cases es with
    | nil =>
      simp only [inferItems]
      exact .bind (ih.1 hs) fun _ _ _ hs₁ => .pure hs₁ _
    | cons f es =>
      simp only [inferItems]
      refine .bind (.fresh hs) fun _ _ _ hs₁ => .bind (ih.1 hs₁) fun d _ _ hs₂ => ?_
      exact .bind (ihs ih.2 hs₂) fun _ _ _ hs₃ => .pure hs₃ _

theorem inferBinding_agrees {t : Ty} {b : Binding} (ih : ∀ f, b.func? = some f → Exact T f)
    (hs : run.store.Acyclic) :
    Agrees run (inferBinding env t b) (@inferBinding .bounded env t b) := by
  cases b with
  | missing name g =>
    simp only [inferBinding]
    exact .fail _ _
  | fn name g params result body ty =>
    simp only [inferBinding_eq, map_eq_pure_bind]
    exact .bind (ih _ rfl hs) fun _ _ _ hs₁ => .pure hs₁ _

theorem inferBindings_agrees {bs : List Binding}
    (ih : ∀ b ∈ bs, ∀ f, b.func? = some f → Exact T f) :
    ∀ {gs : List Scheme} {run : Run}, run.store.Acyclic →
      Agrees run (inferBindings env gs bs) (@inferBindings .bounded env gs bs) := by
  induction bs with
  | nil =>
    intro gs run hs
    simp only [inferBindings]
    exact .pure hs _
  | cons b bs ihs =>
    intro gs run hs
    rw [List.forall_mem_cons] at ih
    cases gs with
    | nil =>
      simp only [inferBindings]
      exact .throw _
    | cons g gs =>
      simp only [inferBindings]
      refine .bind (inferBinding_agrees ih.1 hs) fun _ _ _ hs₁ => ?_
      exact .bind (ihs ih.2 hs₁) fun _ _ _ hs₂ => .pure hs₂ _

/-! ## Expressions -/

theorem var_agrees (hT : T.Exact) (name : String) (typeArgs : Option (List Ty)) (ty : Ty) :
    Exact T (.var name typeArgs ty) := by
  intro env t run hs
  simp only [infer]
  cases env.lookup? name with
  | none => exact .fail _ _
  | some g =>
    cases g with
    | none => exact .throw _
    | some g =>
      refine .bind (.instantiate hs g) fun _ _ _ hs₁ => ?_
      cases typeArgs with
      | none => exact .emit_pure hs₁ _
      | some args =>
        dsimp only
        split
        · exact .bind (.fail _ _) fun _ _ h => absurd h not_yields_fail
        · exact .bind (.unifyTypeArgs hT _ _ _ hs₁) fun _ _ _ hs₂ => .emit_pure hs₂ _

theorem func_agrees {params : List Param} {result ty : Ty} {body : Expr} (ih : Exact T body) :
    Exact T (.func params result body ty) := by
  intro env t run hs
  simp only [infer]
  refine .bind (.openParams hs params) fun _ _ _ hs₁ => .bind (.orFresh hs₁ result) fun _ _ _ hs₂ => ?_
  exact .bind (ih hs₂) fun _ _ _ hs₃ => .emit_pure hs₃ _

theorem call_agrees {callee : Expr} {args : List Expr} {ty : Ty} (ihf : Exact T callee)
    (iha : ∀ a ∈ args, Exact T a) : Exact T (.call callee args ty) := by
  intro env t run hs
  simp only [infer]
  refine .bind (.freshList hs args.length) fun _ _ _ hs₁ => .bind (ihf hs₁) fun _ _ _ hs₂ => ?_
  exact .bind (inferEach_agrees iha hs₂) fun _ _ _ hs₃ => .pure hs₃ _

theorem let_agrees {name : String} {annot ty : Ty} {value body : Expr} (ihv : Exact T value)
    (ihb : Exact T body) : Exact T (.letIn name annot value body ty) := by
  intro env t run hs
  simp only [infer]
  refine .bind (.orFresh hs annot) fun _ _ _ hs₁ => .bind (ihv hs₁) fun _ _ _ hs₂ => ?_
  split
  · exact .emit_pure hs₂ _
  · exact .bind (ihb hs₂) fun _ _ _ hs₃ => .pure hs₃ _

/-- The functions of a group are generalised in the state that solving the equations leaves. -/
theorem group_agrees (hT : T.Exact) {bs : List Binding} {body : Expr} {ty : Ty}
    (ihf : ∀ b ∈ bs, ∀ f, b.func? = some f → Exact T f) (ihb : Exact T body) :
    Exact T (.group bs body ty) := by
  intro env t run hs
  simp only [infer]
  refine .bind (.modify hs) fun _ _ _ hs₁ => .get_bind (.bind (.placeholders hs₁ bs) fun _ _ _ hs₂ => ?_)
  refine .bind (inferBindings_agrees ihf hs₂) fun _ _ _ hs₃ => .get_bind ?_
  refine .bind (.modify hs₃) fun _ _ _ hs₄ => ?_
  refine .bind (.solveFor hT hs₄ _) fun _ _ _ hs₅ => ?_
  refine .bind (.generalizeAll hT _ _ bs hs₅ _ _ _) fun _ _ _ hs₆ => ?_
  exact .bind (ihb hs₆) fun _ _ _ hs₇ => .pure hs₇ _

theorem array_agrees {item ty : Ty} {items : List Expr} (ih : ∀ e ∈ items, Exact T e) :
    Exact T (.array item items ty) := by
  intro env t run hs
  simp only [infer]
  refine .bind (.orFresh hs item) fun _ _ _ hs₁ => ?_
  exact .bind (inferAll_agrees ih hs₁) fun _ _ _ hs₂ => .emit_pure hs₂ _

theorem seq_agrees {effect value : Expr} {ty : Ty} (ihe : Exact T effect) (ihv : Exact T value) :
    Exact T (.seq effect value ty) := by
  intro env t run hs
  simp only [infer]
  refine .bind (.fresh hs) fun _ _ _ hs₁ => .bind (ihe hs₁) fun _ _ _ hs₂ => ?_
  exact .bind (ihv hs₂) fun _ _ _ hs₃ => .pure hs₃ _

theorem block_agrees {items : List Expr} {ty : Ty} (ih : ∀ e ∈ items, Exact T e) :
    Exact T (.block items ty) := by
  intro env t run hs
  simp only [infer]
  split
  · exact .bind (.fail _ _) fun _ _ h => absurd h not_yields_fail
  · exact .bind (inferItems_agrees ih hs) fun _ _ _ hs₁ => .pure hs₁ _

/-- With exact searches, inference of an expression does what it does with budgets. -/
theorem infer_agrees (hT : T.Exact) (e : Expr) : Exact T e := by
  induction e with
  | absent | other =>
    intro env t run hs
    simp only [infer]
    exact .fail _ _
  | int | str =>
    intro env t run hs
    simp only [infer]
    exact .emit_pure hs _
  | var name typeArgs ty => exact var_agrees hT name typeArgs ty
  | func params result body ty ih => exact func_agrees ih
  | call callee args ty ihf iha => exact call_agrees ihf iha
  | letIn name annot value body ty ihv ihb => exact let_agrees ihv ihb
  | group bs body ty ihf ihb => exact group_agrees hT ihf ihb
  | array item items ty ih => exact array_agrees ih
  | seq effect value ty ihe ihv => exact seq_agrees ihe ihv
  | block items ty ih => exact block_agrees ih

theorem inferRoot_agrees (hT : T.Exact) (hs : run.store.Acyclic) (e : Expr) :
    Agrees run (inferRoot env e) (@inferRoot .bounded env e) := by
  simp only [inferRoot]
  refine .bind (.fresh hs) fun _ _ _ hs₁ => .bind (infer_agrees hT e hs₁) fun _ _ _ hs₂ => ?_
  refine .bind (.solveFor hT hs₂ _) fun _ _ _ hs₃ => .get_bind ?_
  simp only [hT.resolve hs₃]
  exact .bind (.lift hs₃ _) fun _ _ _ hs₄ => .bind (.lift hs₄ _) fun _ _ _ hs₅ => .pure hs₅ _

/-! ## Calls -/

/-- A call that starts without a cycle has the same outcome and leaves the same state with exact searches
as with budgets. -/
theorem Context.calls_exact (hT : T.Exact) {c : Context} (hs : c.reset.run.store.Acyclic) (e : Expr)
    (env : Option Env) :
    c.infer e env = @Context.infer .bounded c e env ∧
    c.inferGeneric e env = @Context.inferGeneric .bounded c e env ∧
    c.annotate e env = @Context.annotate .bounded c e env ∧
    c.annotateGeneric e env = @Context.annotateGeneric .bounded c e env := by
  have hroot := @inferRoot_agrees T _ (env.getD .empty) hT hs e
  refine ⟨Agrees.call ?_ e, Agrees.call ?_ e, Agrees.call ?_ e, Agrees.call ?_ e⟩
  · exact .bind hroot fun _ _ _ hs₁ => .pure hs₁ _
  · exact .bind hroot fun _ _ _ hs₁ => .bind (.close hT hs₁ _ _) fun _ _ _ hs₂ => .pure hs₂ _
  · exact .bind hroot fun _ _ _ hs₁ => .pure hs₁ _
  · exact .bind hroot fun _ _ _ hs₁ => .bind (.close hT hs₁ _ _) fun _ _ _ hs₂ => .pure hs₂ _

end

end Polytype
