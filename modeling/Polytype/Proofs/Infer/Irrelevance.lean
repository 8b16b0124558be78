import Mathlib
import Polytype.Proofs.Expr.FreeNames
import Polytype.Proofs.Infer.Invariant

/-!
# Irrelevant bindings

What inference does with a program depends on the environment only through the bindings of its free
names (`unmentioned_irrelevant`): other bindings may differ as long as their generic types have no
variables. The two runs are the same step by step, with the same variables, trees, reports and errors.

They are not runs in the same environment, and every generalisation goes through the whole environment.
`env.Alike N env'` is what the two environments have in common throughout: a name is bound to the same in
both, or it is not one of the names `N` and mentions no variable in either. Every binding form extends
both environments by the same types, so that a name that differs outside is the same once it is bound
again.
-/

namespace Polytype

open InferM

/-! ## Environments that are alike -/

namespace Env

/-- Two environments have the same bindings, except for names that are none of `N` and mention no
variable in either. -/
def Alike (N : String → Prop) (env env' : Env) : Prop :=
  env.RelOn N (fun _ => Eq) env' ∧ env'.RelOn N (fun _ => Eq) env

theorem relOn_eq {N : String → Prop} {env env' : Env} :
    env.RelOn N (fun _ => Eq) env' ↔
      ∀ x, env.lookup? x = env'.lookup? x ∨ ¬ N x ∧ env.ClosedAt x := by
  refine forall_congr' fun x => or_congr_left ?_
  constructor
  · intro hr
    generalize env.lookup? x = r at hr
    generalize env'.lookup? x = r' at hr
    cases hr with
    | none => rfl
    | some hr =>
      cases hr with
      | none => rfl
      | some heq => rw [heq]
  · intro heq
    rw [heq]
    exact rel_self (fun _ => rfl) _

namespace Alike

variable {N N' : String → Prop} {env env' : Env}

theorem symm (h : env.Alike N env') : env'.Alike N env := And.symm h

theorem lookup (h : env.Alike N env') {x : String} (hx : N x) : env.lookup? x = env'.lookup? x := by
  rcases relOn_eq.mp h.1 x with heq | ⟨hn, _⟩
  · exact heq
  · exact absurd hx hn

theorem mono (h : env.Alike N env') (hN : ∀ y, N' y → N y) : env.Alike N' env' :=
  ⟨h.1.imp (fun _ _ _ heq => heq) hN, h.2.imp (fun _ _ _ heq => heq) hN⟩

theorem extend (h : env.Alike N env') (x : String) (g : Scheme) (hN : ∀ y, N' y → y ≠ x → N y) :
    (env.extend x (some g)).Alike N' (env'.extend x (some g)) :=
  ⟨h.1.extend rfl (fun _ _ _ _ heq => heq) hN, h.2.extend rfl (fun _ _ _ _ heq => heq) hN⟩

theorem declare (h : env.Alike N env') (x : String) (t : Ty) (hN : ∀ y, N' y → y ≠ x → N y) :
    (env.declare x t).Alike N' (env'.declare x t) :=
  h.extend x _ hN

theorem extendGroup (h : env.Alike N env') {bs : List Binding} {gs : List Scheme}
    (hlen : gs.length = bs.length) (hN : ∀ y, N' y → y ∉ bs.map (·.name) → N y) :
    (env.extendGroup bs gs).Alike N' (env'.extendGroup bs gs) := by
  have hsame : List.Forall₂ Eq gs gs := List.forall₂_same.mpr fun _ _ => rfl
  exact ⟨h.1.extendGroup hsame hlen (fun _ _ _ _ heq => heq) (fun _ _ _ _ heq => heq) hN,
    h.2.extendGroup hsame hlen (fun _ _ _ _ heq => heq) (fun _ _ _ _ heq => heq) hN⟩

theorem after (h : env.Alike N env') (d : Expr) (hN : ∀ y, N' y → d.boundAfter? ≠ some y → N y) :
    (env.after d).Alike N' (env'.after d) := by
  cases hb : d.boundAfter? with
  | none =>
    rw [after_eq_self hb, after_eq_self hb]
    exact h.mono fun y hy => hN y hy (by simp [hb])
  | some name =>
    obtain ⟨annot, value, ty, rfl⟩ := Expr.boundAfter?_eq_some hb
    refine h.declare name annot fun y hy hne => hN y hy ?_
    rw [hb]
    exact fun heq => hne (Option.some.inj heq).symm

/-! ### Variables -/

theorem present (h : env.Alike N env') (hp : env.Present) : env'.Present := by
  intro x hx
  rcases relOn_eq.mp h.2 x with heq | ⟨_, hc⟩
  · exact hp x (heq.symm.trans hx)
  · obtain ⟨g, hg, _⟩ := hc none hx
    cases hg

/-- The environments mention the same variables of a store. -/
theorem varsUnder (h : env.Alike N env') (s : Store) {v : Int}
    (hv : v ∈ env.varsUnder s.resolve) : v ∈ env'.varsUnder s.resolve := by
  obtain ⟨x, g, hx, hv⟩ := mem_varsUnder.mp hv
  rcases relOn_eq.mp h.1 x with heq | ⟨_, hc⟩
  · exact mem_varsUnder.mpr ⟨x, g, heq ▸ hx, hv⟩
  · obtain ⟨_, ⟨⟩, hg⟩ := hc _ hx
    rw [Store.resolve_eq_subst, Ty.subst_closed hg, hg] at hv
    cases hv

/-- Types are closed in the same way. -/
theorem closeOver (h : env.Alike N env') (s : Store) (names : NameSupply) (t : Ty) (scope : Expr) :
    closeOver s names env t scope = closeOver s names env' t scope := by
  have hpresent : (∃ ws, env.freeVars s = .ok ws) ↔ ∃ ws, env'.freeVars s = .ok ws := by
    rw [freeVars_isOk, freeVars_isOk]
    exact ⟨h.present, h.symm.present⟩
  have hhas : ∀ {ws ws' : VarSet}, env.freeVars s = .ok ws → env'.freeVars s = .ok ws' →
      ∀ vs : VarSet, vs.without ws = vs.without ws' := by
    intro ws ws' hws hws' vs
    refine List.filter_congr fun v _ => ?_
    have hv : ws.has v = true ↔ ws'.has v = true := by
      rw [mem_freeVars hws, mem_freeVars hws']
      exact and_congr_right fun _ => ⟨h.varsUnder s, h.symm.varsUnder s⟩
    rw [Bool.eq_iff_iff.mpr hv]
  unfold Polytype.closeOver
  cases hws : env.freeVars s with
  | error f =>
    cases hws' : env'.freeVars s with
    | error f' => rw [freeVars_error hws, freeVars_error hws']
    | ok ws' =>
      obtain ⟨ws, heq⟩ := hpresent.mpr ⟨ws', hws'⟩
      rw [hws] at heq
      cases heq
  | ok ws =>
    obtain ⟨ws', hws'⟩ := hpresent.mp ⟨ws, hws⟩
    simp only [hws', bind, Except.bind, hhas hws hws']

end Alike

end Env

/-! ## Steps that match -/

namespace InferM

/-- Two results match: the same state, and related values or the same reason to stop. -/
inductive Matched {α : Type} (R : α → α → Prop) :
    EStateM.Result Stop Run α → EStateM.Result Stop Run α → Prop
  | ok {a a' : α} {run : Run} : R a a' → Matched R (.ok a run) (.ok a' run)
  | error {stop : Stop} {run : Run} : Matched R (.error stop run) (.error stop run)

section

variable {α β : Type} {R : α → α → Prop} {S : β → β → Prop} {run : Run}

theorem Matched.rfl {r : EStateM.Result Stop Run α} : Matched Eq r r := by
  cases r with
  | ok a run => exact .ok (Eq.refl a)
  | error stop run => exact .error

theorem Matched.eq {r r' : EStateM.Result Stop Run α} (h : Matched Eq r r') : r = r' := by
  cases h with
  | ok h => rw [h]
  | error => exact Eq.refl _

/-- Sequences of two steps match if the first steps do, and the second ones after them. -/
theorem matched_bind {m m' : InferM α} {f f' : α → InferM β} (h : Matched R (m run) (m' run))
    (hf : ∀ a a' run₁, m.Yields run a run₁ → R a a' → Matched S (f a run₁) (f' a' run₁)) :
    Matched S ((m >>= f) run) ((m' >>= f') run) := by
  show Matched S (EStateM.bind m f run) (EStateM.bind m' f' run)
  unfold EStateM.bind
  unfold Yields at hf
  generalize m run = r at h hf
  generalize m' run = r' at h
  cases h with
  | ok h => exact hf _ _ _ (Eq.refl _) h
  | error => exact .error

/-- The same first step, and second ones that match after it. -/
theorem matched_bind_left {m : InferM α} {f f' : α → InferM β}
    (hf : ∀ a run₁, m.Yields run a run₁ → Matched S (f a run₁) (f' a run₁)) :
    Matched S ((m >>= f) run) ((m >>= f') run) := by
  refine matched_bind Matched.rfl ?_
  rintro a _ run₁ ha ⟨⟩
  exact hf a run₁ ha

end

end InferM

/-! ## Parts of inference -/

section

variable {N N' : String → Prop} {env env' : Env} {t : Ty} {run : Run}

/-- Parameters extend both environments by the same types. -/
theorem openParams_matched (h : env.Alike N env') {ps : List Param}
    (hN : ∀ y, N' y → y ∉ ps.map (·.name) → N y) :
    Matched (fun r r' => r.1 = r'.1 ∧ r.2.Alike N' r'.2) (openParams env ps run)
      (openParams env' ps run) := by
  induction ps generalizing env env' run N with
  | nil =>
    rw [openParams, openParams]
    exact .ok ⟨rfl, h.mono fun y hy => hN y hy (by simp)⟩
  | cons p ps ih =>
    rw [openParams, openParams]
    refine matched_bind_left fun u run₁ _ => ?_
    have hone : (env.declare p.name u).Alike (fun y => N' y ∧ y ∉ ps.map (·.name))
        (env'.declare p.name u) := by
      refine h.declare p.name u ?_
      rintro y ⟨hy, hn⟩ hne
      exact hN y hy (by simpa using ⟨hne, by simpa using hn⟩)
    refine matched_bind (ih hone fun y hy hn => ⟨hy, hn⟩) ?_
    rintro ⟨qs, inner⟩ ⟨_, inner'⟩ run₂ _ ⟨rfl, hinner⟩
    exact .ok ⟨rfl, hinner⟩

theorem close_alike (h : env.Alike N env') (t : Ty) (scope : Expr) :
    close env t scope = close env' t scope := by
  unfold close
  simp only [h.closeOver]

theorem generalize_alike (h : env.Alike N env') (own : Option Scheme) (p : Scheme) (b : Binding) :
    generalize env own p b = generalize env' own p b := by
  cases b with
  | missing name g => rw [generalize, generalize]
  | fn name g params result body ty =>
    cases own with
    | some g => rw [generalize, generalize]
    | none => rw [generalize, generalize, close_alike h]

/-- The functions of a group get the same generic types, which extend both environments. -/
theorem generalizeAll_matched {group : Nat} {outside outside' : Env} (ho : outside.Alike N outside')
    {M : String → Prop} (h : env.Alike M env') {bs ts : List Binding} {ps : List Scheme}
    (hp : ps.length = bs.length) (ht : ts.length = bs.length)
    (hN : ∀ y, N' y → y ∉ bs.map (·.name) → M y) :
    Matched (fun r r' => r.1 = r'.1 ∧ r.2.Alike N' r'.2)
      (generalizeAll group outside env bs ps ts run)
      (generalizeAll group outside' env' bs ps ts run) := by
  induction bs generalizing env env' run ps ts M with
  | nil =>
    rw [generalizeAll, generalizeAll]
    exact .ok ⟨rfl, h.mono fun y hy => hN y hy (by simp)⟩
  | cons b bs ih =>
    cases ps with
    | nil => cases hp
    | cons p ps =>
      cases ts with
      | nil => cases ht
      | cons d ts =>
        rw [generalizeAll, generalizeAll, generalize_alike ho]
        refine matched_bind_left ?_
        rintro ⟨g, done⟩ run₁ _
        refine matched_bind_left fun _ run₂ _ => ?_
        have hone : (env.extend b.name (some g)).Alike (fun y => N' y ∧ y ∉ bs.map (·.name))
            (env'.extend b.name (some g)) := by
          refine h.extend b.name g ?_
          rintro y ⟨hy, hn⟩ hne
          exact hN y hy (by simpa using ⟨hne, by simpa using hn⟩)
        refine matched_bind (ih hone (Nat.succ.inj hp) (Nat.succ.inj ht) fun y hy hn => ⟨hy, hn⟩) ?_
        rintro ⟨ds, outer⟩ ⟨_, outer'⟩ run₃ _ ⟨rfl, houter⟩
        exact .ok ⟨rfl, houter⟩

/-! ## Inference -/

/-- An expression is inferred in the same way in environments that are alike for its free names. -/
def Blind (e : Expr) : Prop :=
  ∀ {env env' : Env} (t : Ty) (run : Run), env.Alike (· ∈ e.free) env' →
    Matched Eq (infer env t e run) (infer env' t e run)

theorem inferAll_blind {es : List Expr} (ih : ∀ e ∈ es, Blind e)
    (h : env.Alike (fun x => ∃ e ∈ es, x ∈ e.free) env') :
    Matched Eq (inferAll env t es run) (inferAll env' t es run) := by
  induction es generalizing run with
  | nil =>
    rw [inferAll, inferAll]
    exact .rfl
  | cons e es ihs =>
    rw [List.forall_mem_cons] at ih
    rw [inferAll, inferAll]
    refine matched_bind (ih.1 t run (h.mono fun y hy => ⟨e, List.mem_cons_self, hy⟩)) ?_
    rintro d _ run₁ _ ⟨⟩
    refine matched_bind (ihs ih.2 (h.mono ?_)) ?_
    · rintro y ⟨f, hf, hy⟩
      exact ⟨f, List.mem_cons_of_mem _ hf, hy⟩
    · rintro ds _ run₂ _ ⟨⟩
      exact .rfl

theorem inferEach_blind {es : List Expr} {ts : List Ty} (ih : ∀ e ∈ es, Blind e)
    (h : env.Alike (fun x => ∃ e ∈ es, x ∈ e.free) env') :
    Matched Eq (inferEach env ts es run) (inferEach env' ts es run) := by
  induction es generalizing run ts with
  | nil =>
    rw [inferEach, inferEach]
    exact .rfl
  | cons e es ihs =>
    cases ts with
    | nil =>
      rw [inferEach, inferEach]
      exact .rfl
    | cons u ts =>
      rw [List.forall_mem_cons] at ih
      rw [inferEach, inferEach]
      refine matched_bind (ih.1 u run (h.mono fun y hy => ⟨e, List.mem_cons_self, hy⟩)) ?_
      rintro d _ run₁ _ ⟨⟩
      refine matched_bind (ihs ih.2 (h.mono ?_)) ?_
      · rintro y ⟨f, hf, hy⟩
        exact ⟨f, List.mem_cons_of_mem _ hf, hy⟩
      · rintro ds _ run₂ _ ⟨⟩
        exact .rfl

theorem inferItems_blind {es : List Expr} (ih : ∀ e ∈ es, Blind e)
    (h : env.Alike (· ∈ Expr.freeItems es) env') :
    Matched Eq (inferItems env t es run) (inferItems env' t es run) := by
  induction es generalizing env env' run with
  | nil =>
    rw [inferItems, inferItems]
    exact .rfl
  | cons e es ihs =>
    rw [List.forall_mem_cons] at ih
    have he : env.Alike (· ∈ e.free) env' := h.mono fun y hy => Expr.mem_freeItems_cons.mpr (.inl hy)
    cases es with
    | nil =>
      rw [inferItems, inferItems]
      refine matched_bind (ih.1 t run he) ?_
      rintro d _ run₁ _ ⟨⟩
      exact .rfl
    | cons f es =>
      rw [inferItems, inferItems]
      · refine matched_bind_left fun u run₁ _ => matched_bind (ih.1 u run₁ he) ?_
        rintro d _ run₂ hd ⟨⟩
        -- what the item binds is bound to the same type in both environments
        refine matched_bind (ihs ih.2 (h.after d fun y hy hne => ?_)) ?_
        · rw [infer_boundAfter hd] at hne
          exact Expr.mem_freeItems_cons.mpr (.inr ⟨hy, hne⟩)
        · rintro ds _ run₃ _ ⟨⟩
          exact .rfl
      · simp
      · simp

theorem inferBinding_blind {b : Binding} (ih : ∀ f, b.func? = some f → Blind f)
    (h : env.Alike (fun x => ∃ f, b.func? = some f ∧ x ∈ f.free) env') :
    Matched Eq (inferBinding env t b run) (inferBinding env' t b run) := by
  cases b with
  | missing name g =>
    rw [inferBinding, inferBinding]
    exact .rfl
  | fn name g params result body ty =>
    rw [inferBinding_eq, inferBinding_eq, map_eq_pure_bind, map_eq_pure_bind]
    refine matched_bind (ih _ rfl t run (h.mono fun y hy => ⟨_, rfl, hy⟩)) ?_
    rintro d _ run₁ _ ⟨⟩
    exact .rfl

theorem inferBindings_blind {bs : List Binding} {ps : List Scheme}
    (ih : ∀ b ∈ bs, ∀ f, b.func? = some f → Blind f)
    (h : env.Alike (fun x => ∃ b ∈ bs, ∃ f, b.func? = some f ∧ x ∈ f.free) env') :
    Matched Eq (inferBindings env ps bs run) (inferBindings env' ps bs run) := by
  induction bs generalizing run ps with
  | nil =>
    rw [inferBindings, inferBindings]
    exact .rfl
  | cons b bs ihs =>
    cases ps with
    | nil =>
      rw [inferBindings, inferBindings]
      exact .rfl
    | cons p ps =>
      rw [List.forall_mem_cons] at ih
      rw [inferBindings, inferBindings]
      refine matched_bind (inferBinding_blind ih.1 (h.mono ?_)) ?_
      · intro y hy
        exact ⟨b, List.mem_cons_self, hy⟩
      · rintro d _ run₁ _ ⟨⟩
        refine matched_bind (ihs ih.2 (h.mono ?_)) ?_
        · rintro y ⟨c, hc, hy⟩
          exact ⟨c, List.mem_cons_of_mem _ hc, hy⟩
        · rintro ds _ run₂ _ ⟨⟩
          exact .rfl

theorem func_blind {params : List Param} {result ty : Ty} {body : Expr} (ih : Blind body) :
    Blind (.func params result body ty) := by
  intro env env' t run h
  rw [infer, infer]
  refine matched_bind (openParams_matched h fun y hy hn => Expr.mem_free_func.mpr ⟨hy, hn⟩) ?_
  rintro ⟨ps, inner⟩ ⟨_, inner'⟩ run₁ _ ⟨rfl, hinner⟩
  refine matched_bind_left fun r run₂ _ => matched_bind (ih r run₂ hinner) ?_
  rintro b _ run₃ _ ⟨⟩
  exact .rfl

theorem call_blind {callee : Expr} {args : List Expr} {ty : Ty} (ihf : Blind callee)
    (iha : ∀ a ∈ args, Blind a) : Blind (.call callee args ty) := by
  intro env env' t run h
  rw [infer, infer]
  refine matched_bind_left fun ts run₁ _ => matched_bind (ihf _ run₁ (h.mono ?_)) ?_
  · intro y hy
    exact Expr.mem_free_call.mpr (.inl hy)
  · rintro f _ run₂ _ ⟨⟩
    refine matched_bind (inferEach_blind iha (h.mono ?_)) ?_
    · intro y hy
      exact Expr.mem_free_call.mpr (.inr hy)
    · rintro as _ run₃ _ ⟨⟩
      exact .rfl

theorem let_blind {name : String} {annot ty : Ty} {value body : Expr} (ihv : Blind value)
    (ihb : Blind body) : Blind (.letIn name annot value body ty) := by
  intro env env' t run h
  rw [infer, infer]
  refine matched_bind_left fun a run₁ _ => matched_bind (ihv a run₁ (h.mono ?_)) ?_
  · intro y hy
    exact Expr.mem_free_letIn.mpr (.inl hy)
  · rintro v _ run₂ _ ⟨⟩
    cases hab : body.isAbsent with
    | true => exact .rfl
    | false =>
      simp only [Bool.false_eq_true, if_false]
      refine matched_bind (ihb t run₂ (h.declare name a ?_)) ?_
      · intro y hy hne
        exact Expr.mem_free_letIn.mpr (.inr ⟨hy, hne⟩)
      · rintro b _ run₃ _ ⟨⟩
        exact .rfl

theorem group_blind {bs : List Binding} {body : Expr} {ty : Ty}
    (ihf : ∀ b ∈ bs, ∀ f, b.func? = some f → Blind f) (ihb : Blind body) :
    Blind (.group bs body ty) := by
  intro env env' t run h
  rw [infer, infer]
  refine matched_bind_left fun _ run₀ _ => matched_bind_left fun before run₁ _ =>
    matched_bind_left fun ps run₂ hp => ?_
  have hplen := placeholders_length hp
  -- inside the group its functions are bound to the same placeholders in both environments
  refine matched_bind (inferBindings_blind ihf (h.extendGroup hplen fun y hy hn =>
    Expr.mem_free_group.mpr ⟨.inl hy, hn⟩)) ?_
  rintro ts _ run₃ ht ⟨⟩
  obtain ⟨htlen, _⟩ := inferBindings_isFn ht hplen
  refine matched_bind_left fun queued run₄ _ => matched_bind_left fun _ run₅ _ =>
    matched_bind_left fun _ run₆ _ => ?_
  refine matched_bind (generalizeAll_matched h h hplen htlen fun y hy hn =>
    Expr.mem_free_group.mpr ⟨.inr hy, hn⟩) ?_
  rintro ⟨ds, outer⟩ ⟨_, outer'⟩ run₇ _ ⟨rfl, houter⟩
  refine matched_bind (ihb t run₇ houter) ?_
  rintro b _ run₈ _ ⟨⟩
  exact .rfl

theorem array_blind {item ty : Ty} {items : List Expr} (ih : ∀ e ∈ items, Blind e) :
    Blind (.array item items ty) := by
  intro env env' t run h
  rw [infer, infer]
  refine matched_bind_left fun a run₁ _ => matched_bind (inferAll_blind ih (h.mono ?_)) ?_
  · intro y hy
    exact Expr.mem_free_array.mpr hy
  · rintro ds _ run₂ _ ⟨⟩
    exact .rfl

theorem seq_blind {effect value : Expr} {ty : Ty} (ihe : Blind effect) (ihv : Blind value) :
    Blind (.seq effect value ty) := by
  intro env env' t run h
  rw [infer, infer]
  refine matched_bind_left fun u run₁ _ => matched_bind (ihe u run₁ (h.mono ?_)) ?_
  · intro y hy
    exact Expr.mem_free_seq.mpr (.inl hy)
  · rintro d _ run₂ _ ⟨⟩
    refine matched_bind (ihv t run₂ (h.mono ?_)) ?_
    · intro y hy
      exact Expr.mem_free_seq.mpr (.inr hy)
    · rintro v _ run₃ _ ⟨⟩
      exact .rfl

theorem block_blind {items : List Expr} {ty : Ty} (ih : ∀ e ∈ items, Blind e) :
    Blind (.block items ty) := by
  intro env env' t run h
  rw [infer, infer]
  cases items with
  | nil => exact .rfl
  | cons e es =>
    simp only [List.isEmpty_cons, Bool.false_eq_true, if_false]
    refine matched_bind (inferItems_blind ih (h.mono ?_)) ?_
    · intro y hy
      rwa [Expr.free]
    · rintro ds _ run₁ _ ⟨⟩
      exact .rfl

/-- The bindings of other names than the free ones have no influence on a step of inference. -/
theorem infer_blind (e : Expr) : Blind e := by
  induction e with
  | absent | other | int | str =>
    intro env env' t run h
    rw [infer, infer]
    exact .rfl
  | var name typeArgs ty =>
    intro env env' t run h
    rw [infer, infer, h.lookup (by simp [Expr.free] : name ∈ _)]
    exact .rfl
  | func params result body ty ih => exact func_blind ih
  | call callee args ty ihf iha => exact call_blind ihf iha
  | letIn name annot value body ty ihv ihb => exact let_blind ihv ihb
  | group bs body ty ihf ihb => exact group_blind ihf ihb
  | array item items ty ih => exact array_blind ih
  | seq effect value ty ihe ihv => exact seq_blind ihe ihv
  | block items ty ih => exact block_blind ih

theorem inferRoot_alike {e : Expr} (h : env.Alike (· ∈ e.free) env') :
    inferRoot env e = inferRoot env' e := by
  funext run
  refine Matched.eq ?_
  rw [inferRoot, inferRoot]
  refine matched_bind_left fun t run₁ _ => matched_bind (infer_blind e t run₁ h) ?_
  rintro d _ run₂ _ ⟨⟩
  exact .rfl

end

/-- Bindings that a program does not mention have no influence. If two environments without variables
agree on the free names of a program, then every call gives the same answer in both: the same types with
the same variables and names, the same tree, the same reports, or the same error with the same
expression to blame. -/
theorem unmentioned_irrelevant (c : Context) (e : Expr) (env env' : Option Env)
    (hp : (env.getD .empty).Present) (hc : (env.getD .empty).All fun g => g.body.vars = [])
    (hp' : (env'.getD .empty).Present) (hc' : (env'.getD .empty).All fun g => g.body.vars = [])
    (h : ∀ x ∈ e.freeNames, (env.getD .empty).lookup? x = (env'.getD .empty).lookup? x) :
    c.infer e env = c.infer e env' ∧ c.inferGeneric e env = c.inferGeneric e env' ∧
      c.annotate e env = c.annotate e env' ∧ c.annotateGeneric e env = c.annotateGeneric e env' := by
  have halike : (env.getD .empty).Alike (· ∈ e.free) (env'.getD .empty) := by
    refine ⟨Env.relOn_eq.mpr fun x => ?_, Env.relOn_eq.mpr fun x => ?_⟩
    · by_cases hx : x ∈ e.free
      · exact .inl (h x (Expr.mem_freeNames.mpr hx))
      · exact .inr ⟨hx, Env.closedAt_of_all hp hc x⟩
    · by_cases hx : x ∈ e.free
      · exact .inl (h x (Expr.mem_freeNames.mpr hx)).symm
      · exact .inr ⟨hx, Env.closedAt_of_all hp' hc' x⟩
  have hroot := inferRoot_alike halike
  have hclose := close_alike halike
  unfold Context.infer Context.inferGeneric Context.annotate Context.annotateGeneric
  simp only [hroot, hclose, and_self]

/-- One environment binds only what the program mentions. The other one binds a name that the program
binds itself, and one that it does not have. -/
theorem unmentioned_irrelevant_shadowed :
    let env := Env.empty.declareGeneric "id" ["T"] (.function [.con "T" []] (.con "T" []))
    let env' := (env.declare "f" .int).declare "g" .string
    let e := Expr.group [.fn "f" none [⟨"x", .absent⟩] .absent
        (.call (.var "id" none .absent) [.var "x" none .absent] .absent) .absent]
      (.call (.var "f" none .absent) [.int 1 .absent] .absent) .absent
    Context.new.annotateGeneric e (some env) = Context.new.annotateGeneric e (some env') := by
  intro env env' e
  have hnames : e.freeNames = ["id"] := by decide +kernel
  have hpresent : env.Present := Env.Present.extend (fun x => by simp) _ _
  have hclosed : env.All fun g => g.body.vars = [] := Env.All.empty.extend (by rfl)
  have hpresent' : env'.Present := (hpresent.extend _ _).extend _ _
  have hclosed' : env'.All fun g => g.body.vars = [] := (hclosed.declare (by rfl)).declare (by rfl)
  have hlookup : ∀ x ∈ e.freeNames, env.lookup? x = env'.lookup? x := by
    intro x hx
    rw [hnames, List.mem_singleton] at hx
    subst hx
    simp [env', Env.declare, Env.lookup?_extend]
  exact (unmentioned_irrelevant .new e (some env) (some env') hpresent hclosed hpresent' hclosed'
    hlookup).2.2.2

end Polytype
