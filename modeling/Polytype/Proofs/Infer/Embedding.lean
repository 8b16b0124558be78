import Mathlib
import Polytype.Proofs.Infer.Invariant
import Polytype.Proofs.Infer.Stopping
import Polytype.Proofs.Store.Embedding

/-!
# Runs inside larger runs

A run of inference *embeds* into another one if its store does, and the other has its constraints in the
same order (`Run.Embeds`). Between them the larger run may have constraints of its own that give a type to
an idle variable; these are always solved, and nothing else takes notice of them.

`InferM.Corresponds` relates the results of two steps that start in such runs: both succeed and the runs
embed again, or both stop for the same reason. Sequences of steps correspond if the steps do
(`corresponds_bind`), and so do all steps that inference is made of.
-/

namespace Polytype

open InferM

/-! ## What is renumbered -/

/-- The error with other numbers for the variables. -/
def InferError.renumber (f : Int → Int) : InferError → InferError
  | .unify e => .unify (e.renumber f)
  | e => e

/-- A renumbering of `m` variables goes on from a renumbering of `n` variables. -/
structure Prolongs (f : Int → Int) (n : Nat) (f' : Int → Int) (m : Nat) : Prop where
  size : n ≤ m
  same : ∀ i : Int, 0 ≤ i → i < n → f' i = f i

theorem Prolongs.refl (f : Int → Int) {n m : Nat} (h : n ≤ m) : Prolongs f n f m := ⟨h, fun _ _ _ => rfl⟩

theorem Prolongs.trans {f f' f'' : Int → Int} {n m k : Nat} (h : Prolongs f n f' m)
    (h' : Prolongs f' m f'' k) : Prolongs f n f'' k := by
  refine ⟨h.size.trans h'.size, fun i h0 hi => ?_⟩
  have := h.size
  rw [h'.same i h0 (by omega), h.same i h0 hi]

/-- The second type is the first one over `n` variables, renumbered. -/
def Ty.Embeds (f : Int → Int) (n : Nat) (t t' : Ty) : Prop := t.Over .all n ∧ t' = t.renumber f

/-- The second generic type is the first one over `n` variables, renumbered. -/
def Scheme.Embeds (f : Int → Int) (n : Nat) (g g' : Scheme) : Prop :=
  g.body.Embeds f n g'.body ∧ g'.params = g.params

/-- The second environment is the first one over `n` variables, renumbered. -/
def Env.Embeds (f : Int → Int) (n : Nat) (env env' : Env) : Prop :=
  env.Rel (fun _ => Scheme.Embeds f n) env'

/-- Both types of the second constraint are those of the first one, renumbered. -/
def Constraint.Embeds (f : Int → Int) (n : Nat) (c c' : Constraint) : Prop :=
  c.expected.Embeds f n c'.expected ∧ c.actual.Embeds f n c'.actual

section

variable {f f' : Int → Int} {n m : Nat}

namespace Ty.Embeds

variable {t t' : Ty}

theorem mono (h : t.Embeds f n t') (hup : Prolongs f n f' m) : t.Embeds f' m t' :=
  ⟨h.1.mono hup.size, h.2.trans (h.1.renumber_congr hup.same).symm⟩

/-- A type without variables is not changed. -/
theorem closed (h : t.Over .all 0) : t.Embeds f n t :=
  ⟨h.mono (Nat.zero_le n), (Ty.renumber_closed (h.closed not_false) f).symm⟩

theorem list_eq {ts ts' : List Ty} (h : List.Forall₂ (Ty.Embeds f n) ts ts') :
    ts' = ts.map (Ty.renumber f) := by
  induction h with
  | nil => rfl
  | cons ht _ ih => rw [ht.2, ih, List.map_cons]

theorem list_over {ts ts' : List Ty} (h : List.Forall₂ (Ty.Embeds f n) ts ts') :
    ∀ t ∈ ts, t.Over .all n := by
  induction h with
  | nil => simp
  | cons ht _ ih => exact List.forall_mem_cons.mpr ⟨ht.1, ih⟩

theorem list {ts : List Ty} (h : ∀ t ∈ ts, t.Over .all n) :
    List.Forall₂ (Ty.Embeds f n) ts (ts.map (Ty.renumber f)) := by
  rw [List.forall₂_map_right_iff, List.forall₂_same]
  exact fun t ht => ⟨h t ht, rfl⟩

theorem function {ts ts' : List Ty} (hs : List.Forall₂ (Ty.Embeds f n) ts ts')
    (h : t.Embeds f n t') : (Ty.function ts t).Embeds f n (.function ts' t') :=
  ⟨.function (list_over hs) h.1, by rw [Ty.renumber_function, list_eq hs, h.2]⟩

theorem array (h : t.Embeds f n t') : (Ty.array t).Embeds f n (.array t') :=
  ⟨.array h.1, by rw [Ty.renumber_array, h.2]⟩

end Ty.Embeds

namespace Scheme.Embeds

variable {g g' : Scheme}

theorem mono (h : g.Embeds f n g') (hup : Prolongs f n f' m) : g.Embeds f' m g' :=
  ⟨h.1.mono hup, h.2⟩

theorem closed (h : g.body.Over .all 0) : g.Embeds f n g := ⟨.closed h, rfl⟩

theorem ofTy {t t' : Ty} (h : t.Embeds f n t') : (Scheme.mono t).Embeds f n (.mono t') := ⟨h, rfl⟩

/-- Instances are renumbered with the types that are put in. -/
theorem apply (h : g.Embeds f n g') {ts ts' : List Ty} (hs : List.Forall₂ (Ty.Embeds f n) ts ts')
    (hlen : ts.length = g.params.length) : (g.apply ts).Embeds f n (g'.apply ts') := by
  refine ⟨Scheme.Over.apply (.of_body h.1.1) hlen (Ty.Embeds.list_over hs), ?_⟩
  obtain ⟨params, body⟩ := g'
  obtain ⟨⟨_, rfl⟩, rfl⟩ := h
  show Scheme.apply ⟨g.params, g.body.subst fun i => .var (f i)⟩ ts' =
    (g.apply ts).subst fun i => .var (f i)
  rw [Ty.Embeds.list_eq hs, Scheme.subst_apply, Scheme.applyUnder, Scheme.apply,
    ← Ty.inst_var_eq_replace, Ty.inst_subst]
  exact Ty.inst_congr (fun _ _ => rfl) fun i _ => Ty.inst_var _ _ _

end Scheme.Embeds

namespace Env.Embeds

variable {env env' : Env}

theorem mono (h : env.Embeds f n env') (hup : Prolongs f n f' m) :
    env.Embeds f' m env' :=
  Env.Rel.imp h fun _ _ _ _ hg => hg.mono hup

theorem extend (h : env.Embeds f n env') (x : String) {g g' : Scheme} (hg : g.Embeds f n g') :
    (env.extend x (some g)).Embeds f n (env'.extend x (some g')) :=
  Env.Rel.extend h hg fun _ _ _ _ hs => hs

theorem declare (h : env.Embeds f n env') (x : String) {t t' : Ty} (ht : t.Embeds f n t') :
    (env.declare x t).Embeds f n (env'.declare x t') :=
  h.extend x (.ofTy ht)

/-- An environment without variables is not changed. -/
theorem closed (h : env.All fun g => g.body.vars = []) : env.Embeds f n env := by
  intro x
  cases hx : env.lookup? x with
  | none => exact .none
  | some o =>
    cases o with
    | none => exact .some .none
    | some g => exact .some (.some (.closed (.of_closed (h x g hx))))

end Env.Embeds

/-! ## Constraints -/

namespace Queue

/-- The constraints of a run among those of a larger one, which also give types to idle variables
`js`. -/
inductive Embeds (f : Int → Int) (n : Nat) :
    List Int → List Constraint → List Constraint → Prop
  | nil : Embeds f n [] [] []
  | both {c c' : Constraint} {js : List Int} {cs cs' : List Constraint} : c.Embeds f n c' →
      Embeds f n js cs cs' → Embeds f n js (c :: cs) (c' :: cs')
  | idle {c' : Constraint} {t : Ty} {j : Int} {js : List Int} {cs cs' : List Constraint} :
      c'.expected = .var j → t.Embeds f n c'.actual → Embeds f n js cs cs' →
      Embeds f n (j :: js) cs (c' :: cs')

namespace Embeds

variable {js ks : List Int} {cs cs' ds ds' : List Constraint}

theorem mono (h : Embeds f n js cs cs') (hup : Prolongs f n f' m) :
    Embeds f' m js cs cs' := by
  induction h with
  | nil => exact .nil
  | both hc _ ih => exact .both ⟨hc.1.mono hup, hc.2.mono hup⟩ ih
  | idle hj ht _ ih => exact .idle hj (ht.mono hup) ih

theorem append (h : Embeds f n js cs cs') (h' : Embeds f n ks ds ds') :
    Embeds f n (js ++ ks) (cs ++ ds) (cs' ++ ds') := by
  induction h with
  | nil => exact h'
  | both hc _ ih => exact .both hc ih
  | idle hj ht _ ih => exact .idle hj ht ih

/-- The larger run solves its constraints as the smaller one does; variables `K` that are idle, and that
none of them is for, stay idle. -/
theorem solveList (h : Embeds f n js cs cs') {K : List Int} {s s' : Store} (hn : s.size = n)
    (hs : s.Embeds f s') (hnodup : (js ++ K).Nodup) (hidle : ∀ j ∈ js ++ K, Store.Idle f s s' j) :
    (solveList s cs).1.Embeds f (solveList s' cs').1 ∧
      (solveList s' cs').2.map (·.1) = (solveList s cs).2.map (·.1.renumber f) ∧
      (solveList s cs).1.size = n ∧
      ∀ j ∈ K, Store.Idle f (solveList s cs).1 (solveList s' cs').1 j := by
  induction h generalizing s s' with
  | nil => exact ⟨hs, rfl, hn, hidle⟩
  | @both c c' js cs cs' hc _ ih =>
    obtain ⟨⟨he, hee⟩, ha, hae⟩ := hc
    subst hn
    have hu := hs.unify he ha
    have hkept := fun j hj => hu.idle (hidle j hj)
    rw [Queue.solveList, Queue.solveList, Traversals.unify_eq, Traversals.unify_eq, hee, hae]
    obtain ⟨⟨s₁, e⟩, h₁⟩ : ∃ r, s.unify c.expected c.actual = r := ⟨_, rfl⟩
    obtain ⟨⟨s₁', e'⟩, h₁'⟩ : ∃ r, s'.unify (c.expected.renumber f) (c.actual.renumber f) = r :=
      ⟨_, rfl⟩
    rw [h₁, h₁'] at hu hkept ⊢
    cases e with
    | none =>
      obtain rfl : e' = none := hu.error
      exact ih hu.size hu.embeds hnodup hkept
    | some e =>
      obtain rfl : e' = some (e.renumber f) := hu.error
      exact ⟨hu.embeds, rfl, hu.size, fun j hj => hkept j (List.mem_append_right _ hj)⟩
  | @idle c' t j js cs cs' hj ht _ ih =>
    obtain ⟨hover, hte⟩ := ht
    subst hn
    have hfirst := hidle j (by simp)
    rw [List.cons_append, List.nodup_cons] at hnodup
    -- the idle variable is bound, and only it
    have hu := hs.unify_idle hover hfirst
    have hover' := hs.owned.find hs.acyclic hover
    rw [Queue.solveList, Traversals.unify_eq, hj, hte, hu]
    refine ih rfl (hs.bind_idle hover' hfirst) hnodup.2 fun k hk => ?_
    have hidle := hidle k (List.mem_cons_of_mem _ hk)
    have hne : k ≠ j := fun heq => hnodup.1 (heq ▸ hk)
    exact ⟨(Store.owns_bind ..).trans hidle.owns, hidle.besides,
      (Store.binding?_bind_of_ne _ hne).trans hidle.unbound⟩

end Embeds

end Queue

/-! ## States -/

namespace Run

/-- The store of a run embeds into that of another one, and its constraints are among those of the other.
The variables `K` are idle, and no constraint is for them. -/
structure Embeds (f : Int → Int) (K : List Int) (run run' : Run) : Prop where
  store : run.store.Embeds f run'.store
  queue : ∃ js, Queue.Embeds f run.store.size js run.queue.toList run'.queue.toList ∧
    (js ++ K).Nodup ∧ ∀ j ∈ js ++ K, Store.Idle f run.store run'.store j

namespace Embeds

variable {K : List Int} {run run' : Run}

/-- The log and the number of groups play no part. -/
theorem congr {run₁ run₁' : Run} (h : run.Embeds f K run') (hs : run₁.store = run.store)
    (hq : run₁.queue = run.queue) (hs' : run₁'.store = run'.store) (hq' : run₁'.queue = run'.queue) :
    run₁.Embeds f K run₁' := by
  refine ⟨by rw [hs, hs']; exact h.store, ?_⟩
  rw [hs, hq, hs', hq']
  exact h.queue

theorem start : Run.start.Embeds f [] Run.start := by
  have hnone : ∀ {i : Int}, Run.start.store.owns i ≠ true := fun {i} hi => by
    rw [Store.owns_iff] at hi
    have hlt : i < (0 : Nat) := hi.2
    omega
  refine ⟨⟨Store.acyclic_empty, ?_, Store.acyclic_empty, ?_, ?_, ?_⟩, [], .nil, by simp, by simp⟩
  · exact fun i t hb => absurd (Store.owns_of_binding? hb) hnone
  · exact fun hi => absurd hi hnone
  · exact fun hi => absurd hi hnone
  · exact fun hi => absurd hi hnone

theorem prolongs_alloc (f : Int → Int) (k : Nat) (run run' : Run) :
    Prolongs f run.store.size (Store.prolong f run.store.size run'.store.size)
      (run.alloc k).store.size := by
  refine ⟨?_, fun i _ hi => Store.prolong_of_lt f _ hi⟩
  rw [size_alloc]
  omega

/-- Both runs get new variables. -/
theorem alloc (h : run.Embeds f K run') (k : Nat) :
    (run.alloc k).Embeds (Store.prolong f run.store.size run'.store.size) K (run'.alloc k) := by
  obtain ⟨js, hq, hnodup, hidle⟩ := h.queue
  exact ⟨h.store.freshList k, js, hq.mono (prolongs_alloc f k run run'), hnodup,
    fun j hj => (hidle j hj).freshList k⟩

/-- The larger run gets a new variable, which is idle. -/
theorem alloc_idle (h : run.Embeds f K run') :
    run.Embeds f (run'.store.size :: K) (run'.alloc 1) := by
  obtain ⟨js, hq, hnodup, hidle⟩ := h.queue
  have hnew : (run'.store.size : Int) ∉ js ++ K := fun hm => by
    have := Store.owns_iff.mp (hidle _ hm).owns
    omega
  have hperm : (js ++ (run'.store.size : Int) :: K).Perm (run'.store.size :: (js ++ K)) :=
    List.perm_middle
  refine ⟨h.store.freshList_into 1, js, hq, ?_, fun j hj => ?_⟩
  · exact hperm.nodup_iff.mpr (List.nodup_cons.mpr ⟨hnew, hnodup⟩)
  · rcases List.mem_cons.mp (hperm.mem_iff.mp hj) with rfl | hj
    · exact h.store.idle_fresh
    · exact (hidle j hj).freshList_into 1

/-- Both runs get a constraint. -/
theorem emit (h : run.Embeds f K run') {a a' b b' : Ty} (ha : a.Embeds f run.store.size a')
    (hb : b.Embeds f run.store.size b') (e e' : Expr) :
    (run.emit a b e).Embeds f K (run'.emit a' b' e') := by
  obtain ⟨js, hq, hnodup, hidle⟩ := h.queue
  refine ⟨h.store, js, ?_, hnodup, hidle⟩
  have hlast : Queue.Embeds f run.store.size [] [⟨a, b, e⟩] [⟨a', b', e'⟩] := .both ⟨ha, hb⟩ .nil
  simpa [Run.emit, Queue.emit] using hq.append hlast

/-- The larger run gets a constraint for an idle variable. -/
theorem emit_idle {j : Int} (h : run.Embeds f (j :: K) run') {t t' : Ty}
    (ht : t.Embeds f run.store.size t') (e' : Expr) :
    run.Embeds f K (run'.emit (.var j) t' e') := by
  obtain ⟨js, hq, hnodup, hidle⟩ := h.queue
  rw [List.append_cons] at hnodup hidle
  refine ⟨h.store, js ++ [j], ?_, hnodup, hidle⟩
  have hlast : Queue.Embeds f run.store.size [j] [] [⟨.var j, t', e'⟩] := .idle rfl ht .nil
  simpa [Run.emit, Queue.emit] using hq.append hlast

/-- Both runs unify two types. -/
theorem unify (h : run.Embeds f K run') {r r' : Store.Unified}
    (hu : Store.Unifies f run.store run'.store r r') :
    (run.withStore r.1).Embeds f K (run'.withStore r'.1) := by
  obtain ⟨js, hq, hnodup, hidle⟩ := h.queue
  exact ⟨hu.embeds, js, hq.mono (.refl f hu.size.ge), hnodup, fun j hj => hu.idle (hidle j hj)⟩

end Embeds

end Run

/-! ## Results -/

namespace InferM

/-- The results of two steps that started in runs with `n` renumbered variables. Either both have a value
and a run embeds into the other; or both stop for the same reason, up to the numbers of variables. -/
inductive Corresponds {α β : Type} (f : Int → Int) (n : Nat) (K : List Int)
    (P : (Int → Int) → Nat → α → β → Prop) :
    EStateM.Result Stop Run α → EStateM.Result Stop Run β → Prop
  | ok {f' : Int → Int} {a : α} {b : β} {run run' : Run} : Prolongs f n f' run.store.size →
      run.Embeds f' K run' → P f' run.store.size a b → Corresponds f n K P (.ok a run) (.ok b run')
  | failed (f' : Int → Int) {e : InferError} {run run' : Run} :
      Corresponds f n K P (.error (.failed e) run) (.error (.failed (e.renumber f')) run')
  | fault {k : Fault} {run run' : Run} :
      Corresponds f n K P (.error (.fault k) run) (.error (.fault k) run')

section

variable {α β γ δ : Type} {K L : List Int} {P : (Int → Int) → Nat → α → β → Prop}
  {Q : (Int → Int) → Nat → γ → δ → Prop} {run run' : Run}

/-- Sequences of two steps correspond if the first steps do, and the second ones after them. -/
theorem corresponds_bind {m : InferM α} {m' : InferM β} {k : α → InferM γ} {k' : β → InferM δ}
    (h : Corresponds f n K P (m run) (m' run'))
    (hk : ∀ f₁ a b run₁ run₁', m.Yields run a run₁ → m'.Yields run' b run₁' →
      Prolongs f n f₁ run₁.store.size → run₁.Embeds f₁ K run₁' → P f₁ run₁.store.size a b →
      Corresponds f₁ run₁.store.size L Q (k a run₁) (k' b run₁')) :
    Corresponds f n L Q ((m >>= k) run) ((m' >>= k') run') := by
  show Corresponds f n L Q (EStateM.bind m k run) (EStateM.bind m' k' run')
  unfold EStateM.bind
  unfold Yields at hk
  generalize m run = r at h hk
  generalize m' run' = r' at h hk
  cases h with
  | failed f' => exact .failed f'
  | fault => exact .fault
  | ok hup hr hp =>
    have hnext := hk _ _ _ _ _ rfl rfl hup hr hp
    show Corresponds f n L Q (k _ _) (k' _ _)
    generalize k _ _ = q at hnext ⊢
    generalize k' _ _ = q' at hnext ⊢
    cases hnext with
    | failed f' => exact .failed f'
    | fault => exact .fault
    | ok hup' hr' hq => exact .ok (hup.trans hup') hr' hq

/-- A step of the larger run alone. -/
theorem corresponds_bind_right {m' : InferM β} {k' : β → InferM δ} {b : β} {run₁' : Run}
    {r : EStateM.Result Stop Run γ} (hm : m'.Yields run' b run₁')
    (h : Corresponds f n K Q r (k' b run₁')) : Corresponds f n K Q r ((m' >>= k') run') := by
  show Corresponds f n K Q r (EStateM.bind m' k' run')
  unfold EStateM.bind
  unfold Yields at hm
  rw [hm]
  exact h

theorem corresponds_pure (h : run.Embeds f K run') {a : α} {b : β} (hp : P f run.store.size a b) :
    Corresponds f run.store.size K P ((pure a : InferM α) run) ((pure b : InferM β) run') :=
  .ok (.refl f le_rfl) h hp

theorem corresponds_fail (e : InferError) (he : e.renumber f = e) (x x' : Expr) :
    Corresponds f n K P (fail e x run) (fail e x' run') := by
  have hfailed := @Corresponds.failed α β f n K P f e (run.failing e x) (run'.failing e x')
  rwa [he] at hfailed

theorem corresponds_refuse (f' : Int → Int) (e : UnifyError) (x x' : Expr) :
    Corresponds f n K P (refuse e x run) (refuse (e.renumber f') x' run') := by
  cases e with
  | mismatch a b => exact .failed f'
  | infinite i t => exact .failed f'
  | foreign i => exact .failed f'
  | broken k => exact .fault

/-- Steps that change only the log and the number of groups. -/
theorem corresponds_modify (h : run.Embeds f K run') {g g' : Run → Run}
    (hs : (g run).store = run.store) (hq : (g run).queue = run.queue)
    (hs' : (g' run').store = run'.store) (hq' : (g' run').queue = run'.queue) :
    Corresponds f run.store.size K (fun _ _ _ _ => True) ((modify g : InferM Unit) run)
      ((modify g' : InferM Unit) run') :=
  .ok (.refl f (by rw [hs])) (h.congr hs hq hs' hq') trivial

theorem corresponds_get (h : run.Embeds f K run') :
    Corresponds f run.store.size K (fun f n s s' => s.store.size = n ∧ s.store.Embeds f s'.store)
      ((get : InferM Run) run) ((get : InferM Run) run') :=
  .ok (.refl f le_rfl) h ⟨rfl, h.store⟩

/-! ### Variables and constraints -/

theorem corresponds_alloc (h : run.Embeds f K run') (k : Nat) {a : α} {b : β}
    (hp : P (Store.prolong f run.store.size run'.store.size) (run.alloc k).store.size a b) :
    Corresponds f run.store.size K P (.ok a (run.alloc k)) (.ok b (run'.alloc k)) :=
  .ok (Run.Embeds.prolongs_alloc f k run run') (h.alloc k) hp

theorem embeds_freshList (f : Int → Int) (k : Nat) (run run' : Run) :
    List.Forall₂ (Ty.Embeds (Store.prolong f run.store.size run'.store.size) (run.alloc k).store.size)
      (Store.freshList k run.store).1 (Store.freshList k run'.store).1 := by
  rw [Store.freshList_renumber f k run.store run'.store]
  exact Ty.Embeds.list (over_freshList run k)

theorem corresponds_freshList (h : run.Embeds f K run') (k : Nat) :
    Corresponds f run.store.size K (fun f n => List.Forall₂ (Ty.Embeds f n)) (freshList k run)
      (freshList k run') :=
  corresponds_alloc h k (embeds_freshList f k run run')

theorem corresponds_fresh (h : run.Embeds f K run') :
    Corresponds f run.store.size K Ty.Embeds (fresh run) (fresh run') := by
  refine corresponds_alloc h 1 ⟨over_fresh run, ?_⟩
  rw [Ty.renumber_var, Store.prolong_of_ge f _ (by omega)]
  exact congrArg Ty.var (by omega)

theorem corresponds_orFresh (h : run.Embeds f K run') {a : Ty} (ha : a ≠ .absent → a.Over .all 0) :
    Corresponds f run.store.size K Ty.Embeds (orFresh a run) (orFresh a run') := by
  cases a with
  | absent => exact corresponds_fresh h
  | var i => exact corresponds_pure h (.closed (ha (by simp)))
  | con name args => exact corresponds_pure h (.closed (ha (by simp)))

theorem corresponds_instantiate (h : run.Embeds f K run') {g g' : Scheme}
    (hg : g.Embeds f run.store.size g') :
    Corresponds f run.store.size K
      (fun f n r r' => r.1.Embeds f n r'.1 ∧ List.Forall₂ (Ty.Embeds f n) r.2 r'.2)
      (instantiate g run) (instantiate g' run') := by
  have hrun : ∀ (g : Scheme) (run : Run), instantiate g run =
      .ok (g.apply (Store.freshList g.params.length run.store).1,
        (Store.freshList g.params.length run.store).1) (run.alloc g.params.length) := fun g run =>
    yields_instantiate.mpr ⟨rfl, rfl⟩
  rw [hrun, hrun, hg.2]
  have hvars := embeds_freshList f g.params.length run run'
  have hg' := hg.mono (Run.Embeds.prolongs_alloc f g.params.length run run')
  exact corresponds_alloc h _ ⟨hg'.apply hvars (length_freshList _ _), hvars⟩

/-! ### Solving -/

theorem unify_run (a b : Ty) (x : Expr) (run : Run) : InferM.unify a b x run =
    (run.store.unify a b).2.elim (.ok () (run.withStore (run.store.unify a b).1))
      fun e => refuse e x (run.withStore (run.store.unify a b).1) := by
  rw [InferM.unify, get_bind_run, Traversals.unify_eq]
  rcases run.store.unify a b with ⟨s, _ | e⟩
  · rfl
  · rfl

theorem corresponds_unify (h : run.Embeds f K run') {a a' b b' : Ty}
    (ha : a.Embeds f run.store.size a') (hb : b.Embeds f run.store.size b') (x x' : Expr) :
    Corresponds f run.store.size K (fun _ _ _ _ => True) (InferM.unify a b x run)
      (InferM.unify a' b' x' run') := by
  obtain ⟨ha, rfl⟩ := ha
  obtain ⟨hb, rfl⟩ := hb
  have hu := h.store.unify ha hb
  rw [unify_run, unify_run, hu.error]
  cases (run.store.unify a b).2 with
  | none => exact .ok (.refl f hu.size.ge) (h.unify hu) trivial
  | some e => exact corresponds_refuse f e x x'

theorem solveFor_run (x : Expr) (run : Run) : solveFor x run =
    (Queue.solveList run.store run.queue.toList).2.elim
      (.ok () (run.solved (Queue.solveList run.store run.queue.toList).1))
      fun e => refuse e.1 (if e.2.isAbsent then x else e.2)
        (run.withStore (Queue.solveList run.store run.queue.toList).1) := by
  rw [solveFor, get_bind_run, Queue.solve]
  rcases Queue.solveList run.store run.queue.toList with ⟨s, _ | e⟩
  · rfl
  · rfl

theorem corresponds_solveFor (h : run.Embeds f K run') (x x' : Expr) :
    Corresponds f run.store.size K (fun _ _ _ _ => True) (solveFor x run) (solveFor x' run') := by
  obtain ⟨js, hq, hnodup, hidle⟩ := h.queue
  obtain ⟨hstore, herror, hsize, hkept⟩ := hq.solveList rfl h.store hnodup hidle
  rw [solveFor_run, solveFor_run]
  rcases hr : Queue.solveList run.store run.queue.toList with ⟨s, e⟩
  rcases hr' : Queue.solveList run'.store run'.queue.toList with ⟨s', e'⟩
  rw [hr, hr'] at hstore herror hkept
  rw [hr] at hsize
  cases e with
  | none =>
    obtain rfl : e' = none := by simpa using herror
    exact .ok (.refl f hsize.ge) ⟨hstore, [], .nil, (List.nodup_append.mp hnodup).2.1, hkept⟩ trivial
  | some e =>
    obtain ⟨e₁, rfl, heq⟩ : ∃ e₁, e' = some e₁ ∧ e₁.1 = e.1.renumber f := by
      simpa using herror
    show Corresponds f run.store.size K _ (refuse e.1 _ (run.withStore s))
      (refuse e₁.1 _ (run'.withStore s'))
    rw [heq]
    exact corresponds_refuse f e.1 _ _

end

end InferM

/-! ### Generalisation -/

section

variable {env env' : Env} {t t' : Ty} {s s' : Store}

/-- The environments mention corresponding variables. -/
theorem Env.Embeds.mem_varsUnder (h : s.Embeds f s') (he : env.Embeds f s.size env') {v : Int} :
    v ∈ env'.varsUnder s'.resolve ↔ ∃ i ∈ env.varsUnder s.resolve, f i = v := by
  constructor
  · intro hv
    obtain ⟨x, g', hx, hv⟩ := Env.mem_varsUnder.mp hv
    obtain ⟨g, hg, ⟨hover, hbody⟩, _⟩ := he.lookup_right hx
    rw [hbody, h.resolve hover, Ty.vars_renumber] at hv
    obtain ⟨i, hi, heq⟩ := List.mem_map.mp hv
    exact ⟨i, Env.mem_varsUnder.mpr ⟨x, g, hg, hi⟩, heq⟩
  · rintro ⟨i, hi, rfl⟩
    obtain ⟨x, g, hx, hi⟩ := Env.mem_varsUnder.mp hi
    obtain ⟨g', hg', ⟨hover, hbody⟩, _⟩ := he.lookup hx
    refine Env.mem_varsUnder.mpr ⟨x, g', hg', ?_⟩
    rw [hbody, h.resolve hover, Ty.vars_renumber]
    exact List.mem_map_of_mem hi

theorem Env.Embeds.owns_varsUnder (h : s.Embeds f s') (he : env.Embeds f s.size env') {v : Int}
    (hv : v ∈ env.varsUnder s.resolve) : s.owns v = true := by
  obtain ⟨x, g, hx, hv⟩ := Env.mem_varsUnder.mp hv
  obtain ⟨_, _, ⟨hover, _⟩, _⟩ := he.lookup hx
  exact h.owns_resolve hover hv

/-- Closing a type names corresponding variables. -/
theorem generalizable_embeds (h : s.Embeds f s') (he : env.Embeds f s.size env')
    (ht : t.Over .all s.size) :
    s'.generalizable env' (t.renumber f) = (s.generalizable env t).map f := by
  have howns : ∀ v ∈ (s.resolve t).vars, s.owns v = true := fun v hv => h.owns_resolve ht hv
  have howns' : ∀ v ∈ (s'.resolve (t.renumber f)).vars, s'.owns v = true := by
    intro v hv
    rw [h.resolve ht, Ty.vars_renumber] at hv
    obtain ⟨i, hi, rfl⟩ := List.mem_map.mp hv
    exact h.owns (howns i hi)
  rw [Store.generalizable_of_owns howns', Store.generalizable_of_owns howns, h.resolve ht,
    Ty.renumber, Ty.vars_subst]
  refine firstsNotIn_flatMap ?_ ?_ ?_
  · intro v hv hn
    refine ⟨rfl, fun hm => hn ?_⟩
    obtain ⟨i, hi, heq⟩ := (Env.Embeds.mem_varsUnder h he).mp hm
    rwa [← h.injective (Env.Embeds.owns_varsUnder h he hi) (howns v hv) heq]
  · intro v _ hm w hw
    obtain rfl := List.mem_singleton.mp hw
    exact (Env.Embeds.mem_varsUnder h he).mpr ⟨v, hm, rfl⟩
  · exact fun v hv w hw => h.injective (howns v hv) (howns w hw)

theorem named_of_mem {ids : List Int} {names : List String} (hlen : ids.length = names.length) {i : Int}
    (hi : i ∈ ids) : ∃ c, named ids names i = .con c [] := by
  rw [← List.length_map fun c => Ty.con c []] at hlen
  obtain ⟨a, ha, hs⟩ := lookup_zip_of_mem hlen hi
  obtain ⟨c, _, rfl⟩ := List.mem_map.mp ha
  exact ⟨c, by rw [named, assign, hs]; rfl⟩

/-- Closing a type results in corresponding generic types. -/
theorem Closes.embeds (h : s.Embeds f s') (he : env.Embeds f s.size env') (ht : t.Over .all s.size)
    {scope scope' : Expr} (hscope : scope'.groupParams = scope.groupParams) {g g' : Scheme}
    {store? store?' : Option Store} (hc : Closes s env t scope g store?)
    (hc' : Closes s' env' (t.renumber f) scope' g' store?') : g.Embeds f s.size g' := by
  have hids := generalizable_embeds h he ht
  have hres := h.resolve ht
  have hparams : g'.params = g.params := by
    rw [hc'.chosen, hc.chosen, hids, hscope]
    exact nameAll_congr (by rw [hres, Ty.names_renumber]) (List.length_map f) _ _ _
  refine ⟨⟨?_, ?_⟩, hparams⟩
  · have hover : g.body.Over (Vocabulary.all.and g.params) s.size :=
      hc.over (h.owned.resolve h.acyclic ht)
    exact ⟨fun hg => absurd trivial hg, hover.vars, fun _ _ => trivial⟩
  · rw [hc'.body, hc.body, hres, hids, hparams, Ty.renumber, Ty.renumber, Ty.subst_subst,
      Ty.subst_subst]
    refine Ty.subst_congr fun i hi => ?_
    have hi := h.owns_resolve ht hi
    have hgen : ∀ v ∈ s.generalizable env t, s.owns v = true := fun v hv =>
      (Store.mem_generalizable.mp hv).1.2
    show named ((s.generalizable env t).map f) g.params (f i) =
      (named (s.generalizable env t) g.params i).subst fun i => .var (f i)
    -- a variable that is named is a constructor now, and any other one is renumbered
    by_cases hm : i ∈ s.generalizable env t
    · have hlen : (s.generalizable env t).length = (g.params.map fun n => Ty.con n []).length := by
        rw [List.length_map, hc.length]
      have hnamed : named ((s.generalizable env t).map f) g.params (f i) =
          named (s.generalizable env t) g.params i :=
        assign_map_ids (fun v hv => h.injective hi (hgen v hv)) hlen .var .var hm
      obtain ⟨n, hn⟩ := named_of_mem hc.length.symm hm
      rw [hnamed, hn]
      rfl
    · have hm' : f i ∉ (s.generalizable env t).map f := fun hmem => hm ((h.mem_map_iff hgen hi).mp hmem)
      rw [named, assign_of_not_mem hm', named, assign_of_not_mem hm]
      rfl

theorem free_isEmpty_embeds (h : s.Embeds f s') (ht : t.Over .all s.size) :
    (s'.free (s'.resolve (t.renumber f))).ids.isEmpty = true ↔
      (s.free (s.resolve t)).ids.isEmpty = true := by
  have hempty : ∀ {s : Store} {t : Ty}, s.Acyclic → (∀ v ∈ (s.resolve t).vars, s.owns v = true) →
      ((s.free (s.resolve t)).ids.isEmpty = true ↔ (s.resolve t).vars = []) := by
    intro s t hs ho
    rw [List.isEmpty_iff, List.eq_nil_iff_forall_not_mem, List.eq_nil_iff_forall_not_mem]
    refine forall_congr' fun v => not_congr ?_
    rw [Store.mem_free, Store.resolve_resolve hs]
    exact ⟨fun hv => hv.1, fun hv => ⟨hv, ho v hv⟩⟩
  rw [hempty h.acyclic fun v hv => h.owns_resolve ht hv, hempty h.acyclic_into, h.resolve ht,
    Ty.vars_renumber, List.map_eq_nil_iff]
  intro v hv
  rw [h.resolve ht, Ty.vars_renumber] at hv
  obtain ⟨i, hi, rfl⟩ := List.mem_map.mp hv
  exact h.owns (h.owns_resolve ht hi)

theorem Env.Embeds.present_iff (he : env.Embeds f n env') : env'.Present ↔ env.Present := by
  refine ⟨fun hp x hx => ?_, fun hp => hp.of_rel he⟩
  have hr := he x
  rw [hx] at hr
  generalize ho : env'.lookup? x = o at hr
  cases hr with
  | some hr =>
    cases hr with
    | none => exact hp x ho

theorem InferM.close_error {run : Run} {scope : Expr} {k : Fault}
    (h : closing run.store env t scope = .error k) : close env t scope run = .error (.fault k) run := by
  rw [← closing_eq run.names] at h
  rw [close, get_bind_run]
  cases hc : closeOver run.store run.names env t scope with
  | ok r =>
    rw [hc] at h
    cases h
  | error f =>
    rw [hc] at h
    cases h
    rfl

theorem InferM.corresponds_close {K : List Int} {run run' : Run} (h : run.Embeds f K run')
    (he : env.Embeds f run.store.size env') (ht : t.Embeds f run.store.size t') {scope scope' : Expr}
    (hscope : scope'.groupParams = scope.groupParams) (hw : ∃ ns, scope.walk = .ok ns)
    (hw' : ∃ ns, scope'.walk = .ok ns) :
    Corresponds f run.store.size K (fun f n r r' => r.1.Embeds f n r'.1) (close env t scope run)
      (close env' t' scope' run') := by
  obtain ⟨ht, rfl⟩ := ht
  have hok : (∃ r, closing run'.store env' (t.renumber f) scope' = .ok r) ↔
      ∃ r, closing run.store env t scope = .ok r := by
    rw [closing_isOk, closing_isOk, free_isEmpty_embeds h.store ht, he.present_iff]
  cases hc : closing run.store env t scope with
  | ok r =>
    obtain ⟨r', hc'⟩ := hok.mpr ⟨r, hc⟩
    have hcloses := closing_closes h.store.acyclic hc
    have hyields : close env t scope run = .ok r (run.closed env t scope) :=
      yields_close.mpr ⟨hc, fun _ => hw, rfl⟩
    have hyields' : close env' (t.renumber f) scope' run' = .ok r' (run'.closed env' _ scope') :=
      yields_close.mpr ⟨hc', fun _ => hw', rfl⟩
    rw [hyields, hyields']
    exact .ok (.refl f le_rfl) (h.congr rfl rfl rfl rfl) (hcloses.embeds h.store he ht hscope
      (closing_closes h.store.acyclic_into hc'))
  | error k =>
    cases hc' : closing run'.store env' (t.renumber f) scope' with
    | ok r' =>
      obtain ⟨r, hr⟩ := hok.mp ⟨r', hc'⟩
      rw [hc] at hr
      cases hr
    | error k' =>
      rw [close_error hc, close_error hc', closing_error hc, closing_error hc']
      exact .fault

end

end

end Polytype
