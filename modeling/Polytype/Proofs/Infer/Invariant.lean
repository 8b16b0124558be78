import Mathlib
import Polytype.Proofs.Expr.Nodes
import Polytype.Proofs.Infer.Generalization
import Polytype.Proofs.Infer.Steps

/-!
# Invariants of a run

The state of a run is read as a set of equations: its solutions are the assignments that satisfy all
bindings of the store and all constraints that wait (`Run.SolvedBy`). A run in order has an acyclic
store, and all its types are in one vocabulary and over the store's own variables (`Run.WF`).

`infer_leads` says that inference keeps a run in order and only adds variables and equations
(`Run.Leads`), in every vocabulary that has what the program and the environment are given.
-/

namespace Polytype

open InferM

/-! ## Constraints -/

/-- A constraint is satisfied by an assignment. -/
def Constraint.SolvedBy (σ : Int → Ty) (c : Constraint) : Prop :=
  c.expected.subst σ = c.actual.subst σ

/-- Both types of a constraint are in a vocabulary. -/
def Constraint.Over (V : Vocabulary) (n : Nat) (c : Constraint) : Prop :=
  c.expected.Over V n ∧ c.actual.Over V n

namespace Queue

theorem solveList_acyclic {s : Store} (hs : s.Acyclic) (cs : List Constraint) :
    s.Extends (solveList s cs).1 ∧ (solveList s cs).1.Acyclic := by
  induction cs generalizing s with
  | nil => exact ⟨.refl s, hs⟩
  | cons c cs ih =>
    have ha := Store.unify_acyclic hs c.expected c.actual
    have he := Store.unify_extends hs c.expected c.actual
    rw [solveList, Traversals.unify_eq]
    generalize s.unify c.expected c.actual = r at ha he ⊢
    obtain ⟨s', e⟩ := r
    cases e with
    | none => exact ⟨he.trans (ih ha).1, (ih ha).2⟩
    | some e => exact ⟨he, ha⟩

/-- After success the solutions are those of before that satisfy all constraints. -/
theorem solveList_solvedBy {s : Store} (hs : s.Acyclic) {cs : List Constraint}
    (h : (solveList s cs).2 = none) {σ : Int → Ty} :
    (solveList s cs).1.SolvedBy σ ↔ s.SolvedBy σ ∧ ∀ c ∈ cs, c.SolvedBy σ := by
  induction cs generalizing s with
  | nil => simp [solveList]
  | cons c cs ih =>
    have ha := Store.unify_acyclic hs c.expected c.actual
    have hu := @Store.unify_solvedBy s c.expected c.actual hs
    rw [solveList, Traversals.unify_eq] at h ⊢
    generalize s.unify c.expected c.actual = r at ha hu h ⊢
    obtain ⟨s', e⟩ := r
    cases e with
    | some e => cases h
    | none =>
      show (solveList s' cs).1.SolvedBy σ ↔ _
      rw [ih ha h, hu rfl, List.forall_mem_cons, and_assoc]
      rfl

theorem solveList_over {V : Vocabulary} {s : Store} (hs : s.Acyclic) (ho : s.Over V)
    {cs : List Constraint} (hc : ∀ c ∈ cs, c.Over V s.size) : (solveList s cs).1.Over V := by
  induction cs generalizing s with
  | nil => exact ho
  | cons c cs ih =>
    rw [List.forall_mem_cons] at hc
    have ha := Store.unify_acyclic hs c.expected c.actual
    have he := Store.unify_extends hs c.expected c.actual
    have ho' := Store.unify_over hs ho hc.1.1 hc.1.2
    rw [solveList, Traversals.unify_eq]
    generalize s.unify c.expected c.actual = r at ha he ho' ⊢
    obtain ⟨s', e⟩ := r
    cases e with
    | some e => exact ho'
    | none =>
      refine ih ha ho' fun d hd => ?_
      rw [he.size]
      exact hc.2 d hd

/-- Constraints that some solution of the store satisfies are solved. -/
theorem solveList_eq_none {s : Store} (hs : s.Acyclic) (ho : s.Over .whole) {cs : List Constraint}
    (hc : ∀ c ∈ cs, c.Over .whole s.size) {σ : Int → Ty} (hσ : s.SolvedBy σ)
    (hsol : ∀ c ∈ cs, c.SolvedBy σ) : (solveList s cs).2 = none := by
  induction cs generalizing s with
  | nil => rfl
  | cons c cs ih =>
    rw [List.forall_mem_cons] at hc hsol
    have ha := Store.unify_acyclic hs c.expected c.actual
    have he := Store.unify_extends hs c.expected c.actual
    have ho' := Store.unify_over hs ho hc.1.1 hc.1.2
    have hn := Store.unify_eq_none hs ho hc.1.1 hc.1.2 hσ hsol.1
    have hu := (@Store.unify_solvedBy s c.expected c.actual hs hn σ).mpr ⟨hσ, hsol.1⟩
    rw [solveList, Traversals.unify_eq]
    generalize s.unify c.expected c.actual = r at ha he ho' hn hu ⊢
    obtain ⟨s', e⟩ := r
    cases hn
    refine ih ha ho' (fun d hd => ?_) hu hsol.2
    rw [he.size]
    exact hc.2 d hd

/-- Solving stops at a constraint that fails after those before it were solved. -/
theorem solveList_stops {s : Store} {cs : List Constraint} {e : UnifyError} {x : Expr}
    (h : (solveList s cs).2 = some (e, x)) :
    ∃ before c after, cs = before ++ c :: after ∧ c.expr = x ∧ (solveList s before).2 = none ∧
      ((solveList s before).1.unify c.expected c.actual).2 = some e ∧
      (solveList s (before ++ [c])).2 ≠ none := by
  induction cs generalizing s with
  | nil => cases h
  | cons c cs ih =>
    cases hu : s.unify c.expected c.actual with
    | mk s' failed =>
      cases failed with
      | none =>
        have hstep : ∀ ds, solveList s (c :: ds) = solveList s' ds := by
          intro ds
          rw [solveList, Traversals.unify_eq, hu]
        rw [hstep] at h
        obtain ⟨before, d, after, hcs, hexpr, hbefore, hfails, hlast⟩ := ih h
        refine ⟨c :: before, d, after, by rw [hcs]; rfl, hexpr, ?_, ?_, ?_⟩
        · rwa [hstep]
        · rwa [hstep]
        · rwa [List.cons_append, hstep]
      | some f =>
        rw [solveList, Traversals.unify_eq, hu] at h
        cases h
        refine ⟨[], c, cs, rfl, rfl, rfl, congrArg Prod.snd hu, ?_⟩
        simp [solveList, Traversals.unify_eq, hu]

end Queue

/-! ## Runs in order -/

namespace Run

/-- An assignment satisfies the bindings and the constraints of a run. -/
structure SolvedBy (run : Run) (σ : Int → Ty) : Prop where
  store : run.store.SolvedBy σ
  queue : ∀ c ∈ run.queue.toList, c.SolvedBy σ

/-- The store is acyclic, and all types are in a vocabulary and over the store's variables. -/
structure WF (V : Vocabulary) (run : Run) : Prop where
  acyclic : run.store.Acyclic
  store : run.store.Over V
  queue : ∀ c ∈ run.queue.toList, c.Over V run.store.size

/-- A run has come to another state, in order, by adding variables and equations. -/
structure Leads (V : Vocabulary) (run run' : Run) : Prop where
  wf : run'.WF V
  size : run.store.size ≤ run'.store.size
  solved : ∀ σ, run'.SolvedBy σ → run.SolvedBy σ

variable {V : Vocabulary} {run run' run'' : Run}

theorem wf_start (V : Vocabulary) : Run.start.WF V := by
  refine ⟨Store.acyclic_empty, ?_, by simp [Run.start]⟩
  intro i t h
  simp [Run.start] at h

theorem Leads.refl (h : run.WF V) : run.Leads V run := ⟨h, le_rfl, fun _ hσ => hσ⟩

theorem Leads.trans (h : run.Leads V run') (h' : run'.Leads V run'') : run.Leads V run'' :=
  ⟨h'.wf, h.size.trans h'.size, fun σ hσ => h.solved σ (h'.solved σ hσ)⟩

/-- Only the store and the queue of a run are to be in order. -/
theorem Leads.of_eq (h : run.WF V) (hs : run'.store = run.store) (hq : run'.queue = run.queue) :
    run.Leads V run' where
  wf := ⟨hs ▸ h.acyclic, hs ▸ h.store, by rw [hs, hq]; exact h.queue⟩
  size := by rw [hs]
  solved := fun _ hσ => ⟨hs ▸ hσ.store, hq ▸ hσ.queue⟩

theorem Leads.withLog (h : run.WF V) (log : Array Event) : run.Leads V (run.withLog log) :=
  .of_eq h rfl rfl

theorem Leads.withNotes (h : run.WF V) (notes : Array Event × NameSupply) :
    run.Leads V (run.withNotes notes) :=
  .of_eq h rfl rfl

theorem Leads.groups (h : run.WF V) (n : Nat) : run.Leads V { run with groups := n } :=
  .of_eq h rfl rfl

theorem size_alloc (run : Run) (n : Nat) : (run.alloc n).store.size = run.store.size + n :=
  Store.size_freshList n run.store

theorem binding?_alloc (run : Run) (n : Nat) (i : Int) :
    (run.alloc n).store.binding? i = run.store.binding? i :=
  Store.binding?_freshList n run.store i

theorem solvedBy_alloc (n : Nat) {σ : Int → Ty} : (run.alloc n).SolvedBy σ ↔ run.SolvedBy σ := by
  have hstore := @Store.solvedBy_congr run.store (run.alloc n).store (binding?_alloc run n) σ
  exact ⟨fun h => ⟨hstore.mp h.store, h.queue⟩, fun h => ⟨hstore.mpr h.store, h.queue⟩⟩

theorem Leads.alloc (h : run.WF V) (n : Nat) : run.Leads V (run.alloc n) := by
  refine ⟨⟨h.acyclic.freshList n, ?_, ?_⟩, ?_, fun _ => (solvedBy_alloc n).mp⟩
  · intro i t hb
    rw [binding?_alloc] at hb
    exact (h.store i t hb).mono (by rw [size_alloc]; omega)
  · intro c hc
    have hle : run.store.size ≤ (run.alloc n).store.size := by
      rw [size_alloc]
      omega
    exact ⟨(h.queue c hc).1.mono hle, (h.queue c hc).2.mono hle⟩
  · rw [size_alloc]
    omega

theorem mem_queue_emit {a b : Ty} {e : Expr} {c : Constraint} :
    c ∈ (run.emit a b e).queue.toList ↔ c ∈ run.queue.toList ∨ c = ⟨a, b, e⟩ := by
  simp [Run.emit, Queue.emit]

theorem solvedBy_emit {a b : Ty} {e : Expr} {σ : Int → Ty} :
    (run.emit a b e).SolvedBy σ ↔ run.SolvedBy σ ∧ a.subst σ = b.subst σ := by
  constructor
  · intro h
    exact ⟨⟨h.store, fun c hc => h.queue c (mem_queue_emit.mpr (.inl hc))⟩,
      h.queue _ (mem_queue_emit.mpr (.inr rfl))⟩
  · rintro ⟨h, heq⟩
    refine ⟨h.store, fun c hc => ?_⟩
    rcases mem_queue_emit.mp hc with hc | rfl
    · exact h.queue c hc
    · exact heq

theorem Leads.emit (h : run.WF V) {a b : Ty} (e : Expr) (ha : a.Over V run.store.size)
    (hb : b.Over V run.store.size) : run.Leads V (run.emit a b e) := by
  refine ⟨⟨h.acyclic, h.store, fun c hc => ?_⟩, le_rfl, fun _ hσ => (solvedBy_emit.mp hσ).1⟩
  rcases mem_queue_emit.mp hc with hc | rfl
  · exact h.queue c hc
  · exact ⟨ha, hb⟩

theorem solvedBy_unify (h : run.WF V) {a b : Ty} (hn : (run.store.unify a b).2 = none)
    {σ : Int → Ty} : (run.withStore (run.store.unify a b).1).SolvedBy σ ↔
      run.SolvedBy σ ∧ a.subst σ = b.subst σ := by
  have hu := @Store.unify_solvedBy run.store a b h.acyclic hn σ
  constructor
  · exact fun hσ => ⟨⟨(hu.mp hσ.store).1, hσ.queue⟩, (hu.mp hσ.store).2⟩
  · exact fun hσ => ⟨hu.mpr ⟨hσ.1.store, hσ.2⟩, hσ.1.queue⟩

theorem Leads.unify (h : run.WF V) {a b : Ty} (ha : a.Over V run.store.size)
    (hb : b.Over V run.store.size) (hn : (run.store.unify a b).2 = none) :
    run.Leads V (run.withStore (run.store.unify a b).1) := by
  have he := Store.unify_extends h.acyclic a b
  refine ⟨⟨Store.unify_acyclic h.acyclic a b, Store.unify_over h.acyclic h.store ha hb, ?_⟩, ?_,
    fun _ hσ => ((solvedBy_unify h hn).mp hσ).1⟩
  · show ∀ c ∈ run.queue.toList, c.Over V (run.store.unify a b).1.size
    rw [he.size]
    exact h.queue
  · show run.store.size ≤ (run.store.unify a b).1.size
    rw [he.size]

/-- Solving keeps the solutions. -/
theorem solvedBy_solve (h : run.WF V) (hs : solve.Yields run () run') {σ : Int → Ty} :
    run'.SolvedBy σ ↔ run.SolvedBy σ := by
  obtain ⟨hn, rfl⟩ := yields_solve.mp hs
  have hl := @Queue.solveList_solvedBy run.store h.acyclic run.queue.toList hn σ
  constructor
  · intro hσ
    obtain ⟨hst, hq⟩ := hl.mp hσ.store
    exact ⟨hst, hq⟩
  · exact fun hσ => ⟨hl.mpr ⟨hσ.store, hσ.queue⟩, by simp⟩

theorem size_solve (h : run.WF V) (hs : solve.Yields run () run') :
    run'.store.size = run.store.size := by
  obtain ⟨_, rfl⟩ := yields_solve.mp hs
  exact (Queue.solveList_acyclic h.acyclic run.queue.toList).1.size

theorem Leads.solve (h : run.WF V) (hs : solve.Yields run () run') : run.Leads V run' := by
  refine ⟨?_, (size_solve h hs).ge, fun σ => (solvedBy_solve h hs).mp⟩
  obtain ⟨_, rfl⟩ := yields_solve.mp hs
  exact ⟨(Queue.solveList_acyclic h.acyclic run.queue.toList).2,
    Queue.solveList_over h.acyclic h.store h.queue, by simp⟩

/-- Constraints with a solution can be solved. -/
theorem solve_yields (h : run.WF .whole) {σ : Int → Ty} (hσ : run.SolvedBy σ) :
    ∃ run', solve.Yields run () run' :=
  ⟨_, yields_solve.mpr
    ⟨Queue.solveList_eq_none h.acyclic h.store h.queue hσ.store hσ.queue, rfl⟩⟩

end Run

/-! ## Parts of inference -/

/-- All types of an environment are in a vocabulary and over the first variables. -/
def Env.Over (V : Vocabulary) (n : Nat) (env : Env) : Prop := env.All (Scheme.Over V n)

theorem Env.Over.mono {V : Vocabulary} {n m : Nat} {env : Env} (h : env.Over V n) (hnm : n ≤ m) :
    env.Over V m := h.imp fun _ hg => hg.mono hnm

section

variable {V : Vocabulary} {run run' : Run} {env : Env}

theorem over_fresh (run : Run) : (Ty.var run.store.size).Over V (run.alloc 1).store.size := by
  rw [Run.size_alloc]
  exact .var (by omega) (by omega)

theorem over_freshList (run : Run) (n : Nat) :
    ∀ t ∈ (Store.freshList n run.store).1, t.Over V (run.alloc n).store.size := by
  intro t ht
  rw [Store.freshList_fst] at ht
  obtain ⟨k, hk, rfl⟩ := List.mem_map.mp ht
  have := List.mem_range.mp hk
  rw [Run.size_alloc]
  exact .var (by omega) (by omega)

theorem orFresh_leads {a t : Ty} (h : (orFresh a).Yields run t run') (hr : run.WF V)
    (ha : a ≠ .absent → a.Over V 0) : run.Leads V run' ∧ t.Over V run'.store.size := by
  rcases yields_orFresh.mp h with ⟨_, rfl, rfl⟩ | ⟨hne, rfl, rfl⟩
  · exact ⟨.alloc hr 1, over_fresh run⟩
  · exact ⟨.refl hr, (ha hne).mono (Nat.zero_le _)⟩

theorem openParams_leads {ps qs : List Param} {inner : Env}
    (h : (openParams env ps).Yields run (qs, inner) run') (hr : run.WF V)
    (he : env.Over V run.store.size) (hp : ∀ p ∈ ps, p.ty ≠ .absent → p.ty.Over V 0) :
    run.Leads V run' ∧ (∀ q ∈ qs, q.ty.Over V run'.store.size) ∧ inner.Over V run'.store.size := by
  induction ps generalizing env run qs inner with
  | nil =>
    obtain ⟨⟨⟩, rfl⟩ := openParams_nil.mp h
    exact ⟨.refl hr, by simp, he⟩
  | cons p ps ih =>
    rw [List.forall_mem_cons] at hp
    obtain ⟨t, run₁, qs, inner, ht, hrest, ⟨⟩⟩ := openParams_cons.mp h
    obtain ⟨hl, hto⟩ := orFresh_leads ht hr hp.1
    have henv : (env.declare p.name t).Over V run₁.store.size :=
      (he.mono hl.size).declare (.ofTy hto)
    obtain ⟨hl', hqs, hinner⟩ := ih hrest hl.wf henv hp.2
    refine ⟨hl.trans hl', ?_, hinner⟩
    rw [List.forall_mem_cons]
    exact ⟨hto.mono hl'.size, hqs⟩

theorem unifyTypeArgs_leads {invalid : Expr} {as vs : List Ty} {u : Unit}
    (h : (unifyTypeArgs invalid as vs).Yields run u run') (hlen : as.length ≤ vs.length)
    (hr : run.WF V) (ha : ∀ a ∈ as, a.Over V 0) (hv : ∀ v ∈ vs, v.Over V run.store.size) :
    run.Leads V run' := by
  induction as generalizing vs run with
  | nil =>
    obtain rfl := unifyTypeArgs_nil.mp h
    exact .refl hr
  | cons a as ih =>
    cases vs with
    | nil => simp at hlen
    | cons v vs =>
      rw [List.forall_mem_cons] at ha hv
      obtain ⟨hn, hrest⟩ := unifyTypeArgs_cons.mp h
      have hl := Run.Leads.unify hr (ha.1.mono (Nat.zero_le _)) hv.1 hn
      exact hl.trans (ih hrest (Nat.le_of_succ_le_succ hlen) hl.wf ha.2 fun w hw =>
        (hv.2 w hw).mono hl.size)

/-! ## What is bound after an item of a block -/

theorem infer_isAbsent {x : Ty} {e d : Expr} (h : (infer env x e).Yields run d run') :
    d.isAbsent = false := by
  cases e with
  | absent => exact absurd h not_infer_absent
  | int value ty =>
    obtain ⟨rfl, _⟩ := infer_int.mp h
    rfl
  | str value ty =>
    obtain ⟨rfl, _⟩ := infer_str.mp h
    rfl
  | var name typeArgs ty =>
    obtain ⟨_, _, _, _, _, rfl, _⟩ := infer_var.mp h
    rfl
  | func params result body ty =>
    obtain ⟨_, _, _, _, _, _, _, _, _, _, rfl, _⟩ := infer_func.mp h
    rfl
  | call callee args ty =>
    obtain ⟨_, _, _, _, _, rfl⟩ := infer_call.mp h
    rfl
  | letIn name annot value body ty =>
    cases hb : body.isAbsent with
    | true =>
      obtain rfl := Expr.isAbsent_iff.mp hb
      obtain ⟨_, _, _, _, _, _, rfl, _⟩ := infer_let_alone.mp h
      rfl
    | false =>
      obtain ⟨_, _, _, _, _, _, _, _, rfl⟩ := (infer_let hb).mp h
      rfl
  | group bindings body ty =>
    obtain ⟨_, _, _, _, _, _, _, _, _, _, _, _, _, _, rfl⟩ := infer_group.mp h
    rfl
  | array item items ty =>
    obtain ⟨_, _, _, _, _, _, rfl, _⟩ := infer_array.mp h
    rfl
  | seq effect value ty =>
    obtain ⟨_, _, _, _, _, rfl⟩ := infer_seq.mp h
    rfl
  | block items ty =>
    obtain ⟨_, _, _, rfl⟩ := infer_block.mp h
    rfl
  | other kind => exact absurd h not_infer_other

theorem Expr.boundAfter?_let {body : Expr} (hb : body.isAbsent = false) (name : String) (annot : Ty)
    (value : Expr) (ty : Ty) : (Expr.letIn name annot value body ty).boundAfter? = none := by
  cases body with
  | absent => cases hb
  | _ => rfl

theorem Expr.boundAfter?_eq_some {e : Expr} {name : String} (h : e.boundAfter? = some name) :
    ∃ annot value ty, e = .letIn name annot value .absent ty := by
  cases e with
  | letIn n annot value body ty =>
    cases hb : body.isAbsent with
    | true =>
      obtain rfl := Expr.isAbsent_iff.mp hb
      cases h
      exact ⟨annot, value, ty, rfl⟩
    | false =>
      rw [Expr.boundAfter?_let hb] at h
      cases h
  | _ => cases h

theorem Env.after_eq_self {e : Expr} (h : e.boundAfter? = none) (Γ : Env) : Γ.after e = Γ := by
  cases e with
  | letIn name annot value body ty =>
    cases body with
    | absent => cases h
    | _ => rfl
  | _ => rfl

/-- An item of a block binds after inference what it bound before. -/
theorem infer_boundAfter {x : Ty} {e d : Expr} (h : (infer env x e).Yields run d run') :
    d.boundAfter? = e.boundAfter? := by
  cases e with
  | absent => exact absurd h not_infer_absent
  | int value ty =>
    obtain ⟨rfl, _⟩ := infer_int.mp h
    rfl
  | str value ty =>
    obtain ⟨rfl, _⟩ := infer_str.mp h
    rfl
  | var name typeArgs ty =>
    obtain ⟨_, _, _, _, _, rfl, _⟩ := infer_var.mp h
    rfl
  | func params result body ty =>
    obtain ⟨_, _, _, _, _, _, _, _, _, _, rfl, _⟩ := infer_func.mp h
    rfl
  | call callee args ty =>
    obtain ⟨_, _, _, _, _, rfl⟩ := infer_call.mp h
    rfl
  | letIn name annot value body ty =>
    cases hb : body.isAbsent with
    | true =>
      obtain rfl := Expr.isAbsent_iff.mp hb
      obtain ⟨_, _, _, _, _, _, rfl, _⟩ := infer_let_alone.mp h
      rfl
    | false =>
      obtain ⟨_, _, _, _, _, _, _, hbody, rfl⟩ := (infer_let hb).mp h
      rw [Expr.boundAfter?_let (infer_isAbsent hbody), Expr.boundAfter?_let hb]
  | group bindings body ty =>
    obtain ⟨_, _, _, _, _, _, _, _, _, _, _, _, _, _, rfl⟩ := infer_group.mp h
    rfl
  | array item items ty =>
    obtain ⟨_, _, _, _, _, _, rfl, _⟩ := infer_array.mp h
    rfl
  | seq effect value ty =>
    obtain ⟨_, _, _, _, _, rfl⟩ := infer_seq.mp h
    rfl
  | block items ty =>
    obtain ⟨_, _, _, rfl⟩ := infer_block.mp h
    rfl
  | other kind => exact absurd h not_infer_other

/-! ## Inference -/

/-- Inferring the expression keeps runs in order, and so is the environment of what follows it. -/
def Leading (V : Vocabulary) (e : Expr) : Prop :=
  ∀ {env : Env} {x : Ty} {run run' : Run} {d : Expr}, (infer env x e).Yields run d run' →
    run.WF V → env.Over V run.store.size → x.Over V run.store.size → e.Over V →
    run.Leads V run' ∧ ∀ Γ : Env, Γ.Over V run'.store.size → (Γ.after d).Over V run'.store.size

theorem inferAll_leads {es ds : List Expr} {x : Ty} (ih : ∀ e ∈ es, Leading V e)
    (h : (inferAll env x es).Yields run ds run') (hr : run.WF V) (he : env.Over V run.store.size)
    (hx : x.Over V run.store.size) (hes : ∀ e ∈ es, e.Over V) : run.Leads V run' := by
  induction es generalizing run ds with
  | nil =>
    obtain ⟨rfl, rfl⟩ := inferAll_nil.mp h
    exact .refl hr
  | cons e es ihs =>
    rw [List.forall_mem_cons] at ih hes
    obtain ⟨d, run₁, ds, hd, hds, rfl⟩ := inferAll_cons.mp h
    have hl := (ih.1 hd hr he hx hes.1).1
    exact hl.trans (ihs ih.2 hds hl.wf (he.mono hl.size) (hx.mono hl.size) hes.2)

theorem inferEach_leads {es ds : List Expr} {ts : List Ty} (ih : ∀ e ∈ es, Leading V e)
    (h : (inferEach env ts es).Yields run ds run') (hlen : ts.length = es.length) (hr : run.WF V)
    (he : env.Over V run.store.size) (ht : ∀ t ∈ ts, t.Over V run.store.size)
    (hes : ∀ e ∈ es, e.Over V) : run.Leads V run' := by
  induction es generalizing run ts ds with
  | nil =>
    obtain ⟨rfl, rfl⟩ := inferEach_nil.mp h
    exact .refl hr
  | cons e es ihs =>
    cases ts with
    | nil => cases hlen
    | cons t ts =>
      rw [List.forall_mem_cons] at ih hes ht
      obtain ⟨d, run₁, ds, hd, hds, rfl⟩ := inferEach_cons.mp h
      have hl := (ih.1 hd hr he ht.1 hes.1).1
      exact hl.trans (ihs ih.2 hds (Nat.succ.inj hlen) hl.wf (he.mono hl.size)
        (fun u hu => (ht.2 u hu).mono hl.size) hes.2)

theorem inferItems_leads {es ds : List Expr} {x : Ty} (ih : ∀ e ∈ es, Leading V e)
    (hne : es ≠ []) (h : (inferItems env x es).Yields run ds run') (hr : run.WF V)
    (he : env.Over V run.store.size) (hx : x.Over V run.store.size) (hes : ∀ e ∈ es, e.Over V) :
    run.Leads V run' := by
  induction es generalizing env run ds with
  | nil => exact absurd rfl hne
  | cons e es ihs =>
    rw [List.forall_mem_cons] at ih hes
    cases es with
    | nil =>
      obtain ⟨d, hd, rfl⟩ := inferItems_last.mp h
      exact (ih.1 hd hr he hx hes.1).1
    | cons f es =>
      obtain ⟨d, run₁, ds, hd, hds, rfl⟩ := inferItems_cons.mp h
      have ha := Run.Leads.alloc hr 1
      obtain ⟨hl, hafter⟩ := ih.1 hd ha.wf (he.mono ha.size) (over_fresh run) hes.1
      have hal := ha.trans hl
      exact hal.trans (ihs ih.2 (by simp) hds hl.wf (hafter env (he.mono hal.size))
        (hx.mono hal.size) hes.2)

theorem placeholders_leads {bs : List Binding} {ps : List Scheme}
    (h : (placeholders bs).Yields run ps run') (hr : run.WF V)
    (hb : ∀ b ∈ bs, ∀ g, b.scheme = some g → g.body.Over V 0) :
    run.Leads V run' ∧ ∀ p ∈ ps, p.body.Over V run'.store.size := by
  induction bs generalizing run ps with
  | nil =>
    obtain ⟨rfl, rfl⟩ := placeholders_nil.mp h
    exact ⟨.refl hr, by simp⟩
  | cons b bs ih =>
    rw [List.forall_mem_cons] at hb
    cases hs : b.scheme with
    | some g =>
      obtain ⟨qs, hrest, rfl⟩ := (placeholders_given hs).mp h
      obtain ⟨hl, hq⟩ := ih hrest hr hb.2
      refine ⟨hl, ?_⟩
      rw [List.forall_mem_cons]
      exact ⟨(hb.1 g hs).mono (Nat.zero_le _), hq⟩
    | none =>
      obtain ⟨qs, hrest, rfl⟩ := (placeholders_open hs).mp h
      have ha := Run.Leads.alloc hr 1
      obtain ⟨hl, hq⟩ := ih hrest ha.wf hb.2
      refine ⟨ha.trans hl, ?_⟩
      rw [List.forall_mem_cons]
      exact ⟨(over_fresh run).mono hl.size, hq⟩

theorem inferBindings_leads {bs ts : List Binding} {ps : List Scheme}
    (ih : ∀ b ∈ bs, ∀ f, b.func? = some f → Leading V f)
    (h : (inferBindings env ps bs).Yields run ts run') (hlen : ps.length = bs.length)
    (hr : run.WF V) (he : env.Over V run.store.size)
    (hp : ∀ p ∈ ps, p.body.Over V run.store.size)
    (hbs : ∀ b ∈ bs, ∀ f, b.func? = some f → f.Over V) : run.Leads V run' := by
  induction bs generalizing run ps ts with
  | nil =>
    obtain ⟨rfl, rfl⟩ := inferBindings_nil.mp h
    exact .refl hr
  | cons b bs ihs =>
    cases ps with
    | nil => cases hlen
    | cons p ps =>
      rw [List.forall_mem_cons] at ih hbs hp
      obtain ⟨d, run₁, ds, hd, hds, rfl⟩ := inferBindings_cons.mp h
      obtain ⟨name, g, params, result, body, ty, qs, r, c, rfl, hf, rfl⟩ :=
        inferBinding_yields.mp hd
      have hl := (ih.1 _ rfl hf hr he hp.1 (hbs.1 _ rfl)).1
      exact hl.trans (ihs ih.2 hds (Nat.succ.inj hlen) hl.wf (he.mono hl.size)
        (fun q hq => (hp.2 q hq).mono hl.size) hbs.2)

/-- The variables of a resolved type of a run in order belong to the store. -/
theorem Run.WF.owns_resolve (hr : run.WF V) (hv : ¬ V.strays) {t : Ty}
    (ht : t.Over V run.store.size) : ∀ i ∈ (run.store.resolve t).vars, run.store.owns i = true :=
  fun i hi => Store.owns_iff.mpr ((hr.store.resolve hr.acyclic ht).vars hv i hi)

theorem Closes.over {s : Store} {t : Ty} {scope : Expr} {g : Scheme} {store? : Option Store}
    {n : Nat} (h : Closes s env t scope g store?) (ht : (s.resolve t).Over V n) : g.Over V n := by
  rw [Scheme.Over, h.body]
  have hwide : (s.resolve t).Over (V.and g.params) n :=
    ⟨ht.whole, ht.vars, fun c hc => .inl (ht.consts c hc)⟩
  refine hwide.subst fun i hi => ?_
  by_cases hm : i ∈ s.generalizable env t
  · have hl := lookup_zip_of_mem
      ((h.length.symm).trans (List.length_map (fun n => Ty.con n [])).symm) hm
    obtain ⟨a, ha, hs⟩ := hl
    obtain ⟨n, hn, rfl⟩ := List.mem_map.mp ha
    rw [named, assign, hs]
    exact .const (.inr hn)
  · rw [named, assign_of_not_mem hm]
    exact hwide.var_of_mem hi

theorem GeneralizedAll.over {bs ts ds : List Binding} {ps gs : List Scheme}
    (h : GeneralizedAll run.store env bs ps ts gs ds) (hr : run.WF V)
    (hp : ∀ p ∈ ps, p.body.Over V run.store.size)
    (hb : ∀ b ∈ bs, ∀ g, b.scheme = some g → g.body.Over V 0) :
    ∀ g ∈ gs, g.Over V run.store.size := by
  generalize hs : run.store = s at h
  induction h with
  | nil => simp
  | @cons b t d p g bs ts ds ps gs hg _ ih =>
    subst hs
    rw [List.forall_mem_cons] at hp hb ⊢
    refine ⟨?_, ih hp.2 hb.2⟩
    have hres := hr.store.resolve hr.acyclic hp.1
    generalize hown : b.scheme = own at hg
    cases hg with
    | given => exact .of_body ((hb.1 g hown).mono (Nat.zero_le run.store.size))
    | closed hc => exact (closing_closes hr.acyclic hc).over hres
    | named hc => exact (closing_closes hr.acyclic hc).over hres

theorem mem_generics {bs : List Binding} {body : Expr} {ty : Ty} {b : Binding} {g : Scheme}
    (hb : b ∈ bs) (hg : b.scheme = some g) : g ∈ (Expr.group bs body ty).generics :=
  List.mem_filterMap.mpr ⟨b, hb, hg⟩

/-- The stages of a group's run, all in order: placeholders `ps` are allocated, the functions are
inferred as `ts`, the constraints are solved, the functions are generalised to `gs` and recorded as
`ds`, and the body is inferred. -/
structure GroupRun (V : Vocabulary) (env : Env) (x : Ty) (bs : List Binding) (body : Expr)
    (run : Run) (ps : List Scheme) (run₁ : Run) (ts : List Binding) (run₂ run₃ : Run)
    (gs : List Scheme) (ds : List Binding) (b : Expr) (run' : Run) : Prop where
  placed : (placeholders bs).Yields { run with groups := run.groups + 1 } ps run₁
  opened : run.Leads V run₁
  length : ps.length = bs.length
  bodies : ∀ p ∈ ps, p.body.Over V run₁.store.size
  inside : (env.extendGroup bs ps).Over V run₁.store.size
  inferred : (inferBindings (env.extendGroup bs ps) ps bs).Yields run₁ ts run₂
  typed : run₁.Leads V run₂
  settled : run₂.Leads V run₃
  solved : ∀ σ, run₃.SolvedBy σ ↔ run₂.SolvedBy σ
  empty : run₃.queue = #[]
  generalized : GeneralizedAll run₃.store env bs ps ts gs ds
  outside : (env.extendGroup bs gs).Over V run₃.store.size
  continued : (infer (env.extendGroup bs gs) x body).Yields run₃ b run'
  final : run₃.Leads V run'

theorem GroupRun.before {x : Ty} {bs ts ds : List Binding} {body b : Expr} {ps gs : List Scheme}
    {run₁ run₂ run₃ : Run}
    (h : GroupRun V env x bs body run ps run₁ ts run₂ run₃ gs ds b run') : run.Leads V run₃ :=
  (h.opened.trans h.typed).trans h.settled

/-- The placeholders of a group are in order, and so is the environment with them. -/
theorem group_opens {bs : List Binding} {ps : List Scheme} {run₁ : Run}
    (hp : (placeholders bs).Yields { run with groups := run.groups + 1 } ps run₁) (hr : run.WF V)
    (he : env.Over V run.store.size)
    (hgiven : ∀ b ∈ bs, ∀ g, b.scheme = some g → g.body.Over V 0) :
    run.Leads V run₁ ∧ (∀ p ∈ ps, p.body.Over V run₁.store.size) ∧
      (env.extendGroup bs ps).Over V run₁.store.size := by
  have hl₀ := Run.Leads.groups hr (run.groups + 1)
  obtain ⟨hl₁, hpo⟩ := placeholders_leads hp hl₀.wf hgiven
  have hl := hl₀.trans hl₁
  exact ⟨hl, hpo, (he.mono hl.size).extendGroup fun p hp => .of_body (hpo p hp)⟩

/-- Solving the constraints of a group keeps the run in order, and so are the generic types that its
functions get. -/
theorem group_settles {bs ts ds : List Binding} {ps gs : List Scheme} {run₁ run₂ run₃ : Run}
    {log : Array Event} (hl₁ : run.Leads V run₁) (hl₂ : run₁.Leads V run₂)
    (hs : solve.Yields (run₂.withLog log) () run₃)
    (hga : GeneralizedAll run₃.store env bs ps ts gs ds) (he : env.Over V run.store.size)
    (hpo : ∀ p ∈ ps, p.body.Over V run₁.store.size)
    (hgiven : ∀ b ∈ bs, ∀ g, b.scheme = some g → g.body.Over V 0) :
    run₂.Leads V run₃ ∧ (env.extendGroup bs gs).Over V run₃.store.size := by
  have hlog := Run.Leads.withLog hl₂.wf log
  have hl₃ := hlog.trans (.solve hlog.wf hs)
  have hgo := hga.over hl₃.wf (fun p hp => (hpo p hp).mono (hl₂.trans hl₃).size) hgiven
  exact ⟨hl₃, (he.mono ((hl₁.trans hl₂).trans hl₃).size).extendGroup hgo⟩

theorem group_run {x : Ty} {bs : List Binding} {body d : Expr} {ty : Ty}
    (ihf : ∀ b ∈ bs, ∀ f, b.func? = some f → Leading V f) (ihb : Leading V body)
    (h : (infer env x (.group bs body ty)).Yields run d run') (hr : run.WF V)
    (he : env.Over V run.store.size) (hx : x.Over V run.store.size)
    (heo : (Expr.group bs body ty).Over V) :
    ∃ ps run₁ ts run₂ run₃ gs ds b,
      GroupRun V env x bs body run ps run₁ ts run₂ run₃ gs ds b run' ∧ d = .group ds b x := by
  obtain ⟨ps, run₁, ts, run₂, run₃, gs, ds, notes, b, hp, ht, hs, hga, hb, rfl⟩ := infer_group_cases h
  obtain ⟨hn, hfuncs, hbody⟩ := Expr.every_group.mp heo
  have hgiven : ∀ b ∈ bs, ∀ g, b.scheme = some g → g.body.Over V 0 := fun b hb g hg =>
    hn.generics g (mem_generics hb hg)
  have hplen := placeholders_length hp
  obtain ⟨hl₁, hpo, hinside⟩ := group_opens hp hr he hgiven
  have hl₂ := inferBindings_leads ihf ht hplen hl₁.wf hinside hpo hfuncs
  obtain ⟨hl₃, houter⟩ := group_settles hl₁ hl₂ hs hga he hpo hgiven
  have hl₄ := hl₃.trans (.withNotes hl₃.wf notes)
  have hl := (hl₁.trans hl₂).trans hl₄
  have hlog := Run.Leads.withLog hl₂.wf (run₂.log.push
    (.solving (run.groups + 1) bs.length run₂.queue.size))
  refine ⟨ps, run₁, ts, run₂, run₃.withNotes notes, gs, ds, b, ⟨hp, hl₁, hplen, hpo, hinside, ht, hl₂,
    hl₄, fun σ => ?_, ?_, hga, houter, hb, ?_⟩, rfl⟩
  · have hsol := @Run.solvedBy_solve V _ run₃ hlog.wf hs σ
    exact ⟨fun hσ => ⟨(hsol.mp ⟨hσ.store, hσ.queue⟩).store, (hsol.mp ⟨hσ.store, hσ.queue⟩).queue⟩,
      fun hσ => ⟨(hsol.mpr ⟨hσ.store, hσ.queue⟩).store, (hsol.mpr ⟨hσ.store, hσ.queue⟩).queue⟩⟩
  · obtain ⟨_, rfl⟩ := yields_solve.mp hs
    rfl
  · exact (ihb hb hl₄.wf houter (hx.mono hl.size) hbody).1

/-- The stages of a call's run, all in order: the arguments get new variables for types, the callee is
inferred as `f`, and the arguments as `es`. -/
structure CallRun (V : Vocabulary) (env : Env) (x : Ty) (callee : Expr) (args : List Expr) (run : Run)
    (f : Expr) (run₁ : Run) (es : List Expr) (run' : Run) : Prop where
  opened : run.Leads V (run.alloc args.length)
  wanted : (Ty.function (Store.freshList args.length run.store).1 x).Over V
    (run.alloc args.length).store.size
  called : (infer env (.function (Store.freshList args.length run.store).1 x) callee).Yields
    (run.alloc args.length) f run₁
  before : run.Leads V run₁
  fresh : ∀ v ∈ (Store.freshList args.length run.store).1, v.Over V run₁.store.size
  given : (inferEach env (Store.freshList args.length run.store).1 args).Yields run₁ es run'
  final : run₁.Leads V run'

theorem call_run {x : Ty} {callee d : Expr} {args : List Expr} {ty : Ty} (ihf : Leading V callee)
    (iha : ∀ a ∈ args, Leading V a) (h : (infer env x (.call callee args ty)).Yields run d run')
    (hr : run.WF V) (he : env.Over V run.store.size) (hx : x.Over V run.store.size)
    (heo : (Expr.call callee args ty).Over V) :
    ∃ f run₁ es, CallRun V env x callee args run f run₁ es run' ∧ d = .call f es x := by
  obtain ⟨f, run₁, es, hf, hes, rfl⟩ := infer_call.mp h
  obtain ⟨_, hcallee, hargs⟩ := Expr.every_call.mp heo
  have ha := Run.Leads.alloc hr args.length
  have hfresh : ∀ v ∈ (Store.freshList args.length run.store).1, v.Over V _ :=
    over_freshList run args.length
  have hfun : (Ty.function (Store.freshList args.length run.store).1 x).Over V _ :=
    .function hfresh (hx.mono ha.size)
  have hl := (ihf hf ha.wf (he.mono ha.size) hfun hcallee).1
  have hfresh' : ∀ v ∈ (Store.freshList args.length run.store).1, v.Over V _ := fun v hv =>
    (hfresh v hv).mono hl.size
  have hl' := inferEach_leads iha hes (length_freshList _ _) hl.wf (he.mono (ha.trans hl).size) hfresh'
    hargs
  exact ⟨f, run₁, es, ⟨ha, hfun, hf, ha.trans hl, hfresh', hes, hl'⟩, rfl⟩

/-- The stages of the run of a `let` with a body, all in order: the value is inferred as `v` against its
annotation or a new variable `a`, and the body as `b` with the name bound to `a`. -/
structure LetRun (V : Vocabulary) (env : Env) (x : Ty) (name : String) (annot : Ty) (value body : Expr)
    (run : Run) (a : Ty) (run₁ : Run) (v : Expr) (run₂ : Run) (b : Expr) (run' : Run) : Prop where
  annotated : (orFresh annot).Yields run a run₁
  opened : run.Leads V run₁
  wanted : a.Over V run₁.store.size
  valued : (infer env a value).Yields run₁ v run₂
  before : run.Leads V run₂
  inside : (env.declare name a).Over V run₂.store.size
  continued : (infer (env.declare name a) x body).Yields run₂ b run'
  final : run₂.Leads V run'

theorem let_run {x : Ty} {name : String} {annot ty : Ty} {value body d : Expr}
    (hab : body.isAbsent = false) (ihv : Leading V value) (ihb : Leading V body)
    (h : (infer env x (.letIn name annot value body ty)).Yields run d run') (hr : run.WF V)
    (he : env.Over V run.store.size) (hx : x.Over V run.store.size)
    (heo : (Expr.letIn name annot value body ty).Over V) :
    ∃ a run₁ v run₂ b, LetRun V env x name annot value body run a run₁ v run₂ b run' ∧
      d = .letIn name a v b x := by
  obtain ⟨a, run₁, v, run₂, b, ha, hv, hb, rfl⟩ := (infer_let hab).mp h
  obtain ⟨hn, hvalue, hbody⟩ := Expr.every_letIn.mp heo
  obtain ⟨hl₁, hao⟩ := orFresh_leads ha hr hn.annot
  have hl₂ := (ihv hv hl₁.wf (he.mono hl₁.size) hao hvalue).1
  have hl := hl₁.trans hl₂
  have hinside : (env.declare name a).Over V run₂.store.size :=
    (he.mono hl.size).declare (.ofTy (hao.mono hl₂.size))
  have hl₃ := (ihb hb hl₂.wf hinside (hx.mono hl.size) hbody).1
  exact ⟨a, run₁, v, run₂, b, ⟨ha, hl₁, hao, hv, hl, hinside, hb, hl₃⟩, rfl⟩

/-- The stages of the run of two expressions in a row, all in order: the first is inferred as `f` against a
new variable, and the second as `v`. -/
structure SeqRun (V : Vocabulary) (env : Env) (x : Ty) (effect value : Expr) (run : Run) (f : Expr)
    (run₁ : Run) (v : Expr) (run' : Run) : Prop where
  opened : run.Leads V (run.alloc 1)
  effected : (infer env (.var run.store.size) effect).Yields (run.alloc 1) f run₁
  before : run.Leads V run₁
  continued : (infer env x value).Yields run₁ v run'
  final : run₁.Leads V run'

theorem seq_run {x : Ty} {effect value d : Expr} {ty : Ty} (ihe : Leading V effect)
    (ihv : Leading V value) (h : (infer env x (.seq effect value ty)).Yields run d run') (hr : run.WF V)
    (he : env.Over V run.store.size) (hx : x.Over V run.store.size)
    (heo : (Expr.seq effect value ty).Over V) :
    ∃ f run₁ v, SeqRun V env x effect value run f run₁ v run' ∧ d = .seq f v x := by
  obtain ⟨f, run₁, v, hf, hv, rfl⟩ := infer_seq.mp h
  obtain ⟨_, heffect, hvalue⟩ := Expr.every_seq.mp heo
  have ha := Run.Leads.alloc hr 1
  have hl := ha.trans (ihe hf ha.wf (he.mono ha.size) (over_fresh run) heffect).1
  have hl' := (ihv hv hl.wf (he.mono hl.size) (hx.mono hl.size) hvalue).1
  exact ⟨f, run₁, v, ⟨ha, hf, hl, hv, hl'⟩, rfl⟩

theorem var_leads (name : String) (typeArgs : Option (List Ty)) (ty : Ty) :
    Leading V (.var name typeArgs ty) := by
  intro env x run run' d h hr he hx heo
  obtain ⟨g, run₁, hg, hlen, hu, rfl, rfl⟩ := infer_var.mp h
  have ha := Run.Leads.alloc hr g.params.length
  have hn := Expr.every_var.mp heo
  have hfresh : ∀ v ∈ (Store.freshList g.params.length run.store).1, v.Over V _ :=
    over_freshList run g.params.length
  have hle : (typeArgs.getD []).length ≤ (Store.freshList g.params.length run.store).1.length := by
    rw [length_freshList]
    cases typeArgs with
    | none => exact Nat.zero_le _
    | some args => exact (hlen args rfl).le
  have hl := unifyTypeArgs_leads hu hle ha.wf hn.typeArguments hfresh
  have hal := ha.trans hl
  have happ : (g.apply (Store.freshList g.params.length run.store).1).Over V run₁.store.size :=
    ((he name g hg).mono hal.size).apply (length_freshList _ _) fun v hv =>
      (hfresh v hv).mono hl.size
  exact ⟨hal.trans (.emit hl.wf _ (hx.mono hal.size) happ), fun Γ hΓ => hΓ⟩

theorem func_leads {params : List Param} {result ty : Ty} {body : Expr} (ih : Leading V body) :
    Leading V (.func params result body ty) := by
  intro env x run run' d h hr he hx heo
  obtain ⟨ps, inner, run₁, r, run₂, b, run₃, hp, hres, hb, rfl, rfl⟩ := infer_func.mp h
  obtain ⟨hn, hbody⟩ := Expr.every_func.mp heo
  obtain ⟨hl₁, hps, hinner⟩ := openParams_leads hp hr he hn.params
  obtain ⟨hl₂, hro⟩ := orFresh_leads hres hl₁.wf hn.result
  have hl₃ := (ih hb hl₂.wf (hinner.mono hl₂.size) hro hbody).1
  have hl := (hl₁.trans hl₂).trans hl₃
  refine ⟨hl.trans (.emit hl.wf _ (hx.mono hl.size) (.function ?_ (hro.mono hl₃.size))),
    fun Γ hΓ => hΓ⟩
  intro t ht
  obtain ⟨p, hp, rfl⟩ := List.mem_map.mp ht
  exact (hps p hp).mono (hl₂.trans hl₃).size

/-- A `let` without a body binds its name for what comes after it. -/
theorem let_alone_leads {name : String} {annot ty : Ty} {value : Expr} (ih : Leading V value) :
    Leading V (.letIn name annot value .absent ty) := by
  intro env x run run' d h hr he hx heo
  obtain ⟨hn, hvalue, _⟩ := Expr.every_letIn.mp heo
  obtain ⟨a, run₁, v, run₂, ha, hv, rfl, rfl⟩ := infer_let_alone.mp h
  obtain ⟨hl₁, hao⟩ := orFresh_leads ha hr hn.annot
  have hl₂ := (ih hv hl₁.wf (he.mono hl₁.size) hao hvalue).1
  have hl := hl₁.trans hl₂
  exact ⟨hl.trans (.emit hl.wf _ (hx.mono hl.size) (hao.mono hl₂.size)), fun Γ hΓ =>
    hΓ.declare (.ofTy (hao.mono hl₂.size))⟩

theorem let_leads {name : String} {annot ty : Ty} {value body : Expr} (hab : body.isAbsent = false)
    (ihv : Leading V value) (ihb : Leading V body) : Leading V (.letIn name annot value body ty) := by
  intro env x run run' d h hr he hx heo
  obtain ⟨a, run₁, v, run₂, b, hl, rfl⟩ := let_run hab ihv ihb h hr he hx heo
  refine ⟨hl.before.trans hl.final, fun Γ hΓ => ?_⟩
  rwa [Env.after_eq_self (Expr.boundAfter?_let (infer_isAbsent hl.continued) _ _ _ _)]

theorem array_leads {item ty : Ty} {items : List Expr} (ih : ∀ e ∈ items, Leading V e) :
    Leading V (.array item items ty) := by
  intro env x run run' d h hr he hx heo
  obtain ⟨a, run₁, es, run₂, ha, hes, rfl, rfl⟩ := infer_array.mp h
  obtain ⟨hn, hitems⟩ := Expr.every_array.mp heo
  obtain ⟨hl₁, hao⟩ := orFresh_leads ha hr hn.item
  have hl₂ := inferAll_leads ih hes hl₁.wf (he.mono hl₁.size) hao hitems
  have hl := hl₁.trans hl₂
  exact ⟨hl.trans (.emit hl.wf _ (hx.mono hl.size) (.array (hao.mono hl₂.size))), fun Γ hΓ => hΓ⟩

/-- Inference keeps runs in order and adds only variables and equations. -/
theorem infer_leads (V : Vocabulary) (e : Expr) : Leading V e := by
  induction e with
  | absent => exact fun h => absurd h not_infer_absent
  | other kind => exact fun h => absurd h not_infer_other
  | int value ty =>
    intro env x run run' d h hr _ hx _
    obtain ⟨rfl, rfl⟩ := infer_int.mp h
    exact ⟨.emit hr _ hx (.const V.int), fun Γ hΓ => hΓ⟩
  | str value ty =>
    intro env x run run' d h hr _ hx _
    obtain ⟨rfl, rfl⟩ := infer_str.mp h
    exact ⟨.emit hr _ hx (.const V.string), fun Γ hΓ => hΓ⟩
  | var name typeArgs ty => exact var_leads name typeArgs ty
  | func params result body ty ih => exact func_leads ih
  | call callee args ty ihf iha =>
    intro env x run run' d h hr he hx heo
    obtain ⟨f, run₁, es, hc, rfl⟩ := call_run ihf iha h hr he hx heo
    exact ⟨hc.before.trans hc.final, fun Γ hΓ => hΓ⟩
  | letIn name annot value body ty ihv ihb =>
    cases hab : body.isAbsent with
    | true =>
      obtain rfl := Expr.isAbsent_iff.mp hab
      exact let_alone_leads ihv
    | false => exact let_leads hab ihv ihb
  | group bs body ty ihf ihb =>
    intro env x run run' d h hr he hx heo
    obtain ⟨ps, run₁, ts, run₂, run₃, gs, ds, b, hg, rfl⟩ := group_run ihf ihb h hr he hx heo
    exact ⟨hg.before.trans hg.final, fun Γ hΓ => hΓ⟩
  | array item items ty ih => exact array_leads ih
  | seq effect value ty ihe ihv =>
    intro env x run run' d h hr he hx heo
    obtain ⟨f, run₁, v, hs, rfl⟩ := seq_run ihe ihv h hr he hx heo
    exact ⟨hs.before.trans hs.final, fun Γ hΓ => hΓ⟩
  | block items ty ih =>
    intro env x run run' d h hr he hx heo
    obtain ⟨hne, es, hes, rfl⟩ := infer_block.mp h
    exact ⟨inferItems_leads ih hne hes hr he hx (Expr.every_block.mp heo).2, fun Γ hΓ => hΓ⟩

/-! ## Whole programs -/

/-- A program's run, with one variable expected of it, up to where all constraints are solved. -/
structure RootRun (V : Vocabulary) (env : Env) (root typed : Expr) (run₁ run' : Run) : Prop where
  inferred : (infer env (.var 0) root).Yields (Run.start.alloc 1) typed run₁
  opened : (Run.start.alloc 1).WF V
  scope : env.Over V (Run.start.alloc 1).store.size
  expected : (Ty.var 0).Over V (Run.start.alloc 1).store.size
  settled : run₁.Leads V run'
  solved : ∀ σ, run'.SolvedBy σ ↔ run₁.SolvedBy σ
  empty : run'.queue = #[]

theorem root_run {root : Expr} {r : Expr × Ty} (h : (inferRoot env root).Yields .start r run')
    (he : env.Over V 0) (hroot : root.Over V) :
    ∃ typed run₁, RootRun V env root typed run₁ run' ∧
      r = (typed.mapTypes run'.store.resolve, run'.store.resolve (.var 0)) := by
  obtain ⟨typed, run₁, ht, hs, rfl⟩ := inferRoot_yields.mp h
  have ha := Run.Leads.alloc (Run.wf_start V) 1
  have he' := he.mono (Nat.zero_le (Run.start.alloc 1).store.size)
  have hx : (Ty.var 0).Over V (Run.start.alloc 1).store.size := over_fresh .start
  have hl := (infer_leads V root ht ha.wf he' hx hroot).1
  refine ⟨typed, run₁, ⟨ht, ha.wf, he', hx, .solve hl.wf hs, fun σ => Run.solvedBy_solve hl.wf hs,
    ?_⟩, rfl⟩
  obtain ⟨_, rfl⟩ := yields_solve.mp hs
  rfl

/-- Resolution in the last store solves the equations of a program's run. -/
theorem RootRun.solvedBy {root typed : Expr} {run₁ : Run} (h : RootRun V env root typed run₁ run') :
    run₁.SolvedBy fun i => run'.store.resolve (.var i) :=
  (h.solved _).mp ⟨Store.solvedBy_resolve_var h.settled.wf.acyclic, by simp [h.empty]⟩

end

end Polytype
