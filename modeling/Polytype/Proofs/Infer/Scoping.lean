import Mathlib
import Polytype.Proofs.Expr.FreeNames
import Polytype.Proofs.Infer.Invariant
import Polytype.Proofs.Infer.Stopping

/-!
# Scopes of names

The free names of an expression are computed from the tree alone; inference finds out what a name
refers to by handing environments down. Both have the same scopes (`inference_scoped`): inference is
stopped at an unbound name only if the name is free and the environment does not bind it, and it ends well
only if there is no such name. This holds of every program and environment, in any state of a context.

Which names of a form of expression dangle in which of its parts is said once (`dangling_func` and so on).
From this the one half goes from the parts that were inferred to the whole (`infer_binds`), and the other
from the whole to the part at which inference is stopped (`Enters.dangling`).
-/

namespace Polytype

open InferM

/-! ## Bound names -/

namespace Env

theorem lookup?_extend_eq_none {env : Env} {x y : String} {g : Option Scheme} :
    (env.extend x g).lookup? y = none ↔ y ≠ x ∧ env.lookup? y = none := by
  rw [lookup?_extend]
  by_cases hxy : x = y
  · simp [hxy]
  · simp [hxy, Ne.symm hxy]

theorem lookup?_declare_eq_none {env : Env} {x y : String} {t : Ty} :
    (env.declare x t).lookup? y = none ↔ y ≠ x ∧ env.lookup? y = none :=
  lookup?_extend_eq_none

theorem lookup?_extendGroup_eq_none {env : Env} {bs : List Binding} {gs : List Scheme}
    (hlen : gs.length = bs.length) {y : String} :
    (env.extendGroup bs gs).lookup? y = none ↔ y ∉ bs.map (·.name) ∧ env.lookup? y = none := by
  by_cases hy : y ∈ bs.map (·.name)
  · obtain ⟨i, b, hb, _, hlookup⟩ := lookup?_extendGroup_of_mem hy
    have hi : i < gs.length := hlen ▸ (List.getElem?_eq_some_iff.mp hb).1
    rw [hlookup env gs hlen, List.getElem?_eq_getElem hi]
    simp [hy]
  · rw [lookup?_extendGroup_of_not_mem hy]
    exact ⟨fun hl => ⟨hy, hl⟩, fun hl => hl.2⟩

theorem lookup?_after_eq_none {env : Env} {d : Expr} {y : String} :
    (env.after d).lookup? y = none ↔ d.boundAfter? ≠ some y ∧ env.lookup? y = none := by
  cases hb : d.boundAfter? with
  | none => simp [after_eq_self hb]
  | some name =>
    obtain ⟨annot, value, ty, rfl⟩ := Expr.boundAfter?_eq_some hb
    show (env.declare name annot).lookup? y = none ↔ _
    rw [lookup?_declare_eq_none, ne_eq, ne_eq, Option.some_inj, @eq_comm _ y]

end Env

theorem openParams_lookup? {env inner : Env} {ps qs : List Param} {run run' : Run}
    (h : (openParams env ps).Yields run (qs, inner) run') {y : String} :
    inner.lookup? y = none ↔ y ∉ ps.map (·.name) ∧ env.lookup? y = none := by
  induction ps generalizing env run qs inner with
  | nil =>
    obtain ⟨⟨⟩, rfl⟩ := openParams_nil.mp h
    simp
  | cons p ps ih =>
    obtain ⟨t, run₁, qs, inner, _, hrest, ⟨⟩⟩ := openParams_cons.mp h
    rw [ih hrest, Env.lookup?_declare_eq_none, List.map_cons, List.mem_cons]
    tauto

/-! ## Dangling names -/

/-- A name is free in an expression and the environment does not bind it. -/
def Expr.Dangling (e : Expr) (env : Env) (x : String) : Prop := x ∈ e.free ∧ env.lookup? x = none

section

variable {env : Env} {t ty : Ty} {run run' : Run} {x : String}

theorem dangling_var {name : String} {typeArgs : Option (List Ty)} :
    (Expr.var name typeArgs ty).Dangling env x ↔ x = name ∧ env.lookup? name = none := by
  rw [Expr.Dangling, Expr.free, List.mem_singleton]
  constructor
  · rintro ⟨rfl, hl⟩
    exact ⟨rfl, hl⟩
  · rintro ⟨rfl, hl⟩
    exact ⟨rfl, hl⟩

theorem dangling_func {params ps : List Param} {result : Ty} {body : Expr} {inner : Env}
    (h : (openParams env params).Yields run (ps, inner) run') :
    (Expr.func params result body ty).Dangling env x ↔ body.Dangling inner x := by
  rw [Expr.Dangling, Expr.Dangling, Expr.mem_free_func, openParams_lookup? h, and_assoc]

theorem dangling_call {callee : Expr} {args : List Expr} :
    (Expr.call callee args ty).Dangling env x ↔
      callee.Dangling env x ∨ ∃ a ∈ args, a.Dangling env x := by
  unfold Expr.Dangling
  rw [Expr.mem_free_call]
  grind

theorem dangling_let {name : String} {annot : Ty} {value body : Expr} (a : Ty) :
    (Expr.letIn name annot value body ty).Dangling env x ↔
      value.Dangling env x ∨ body.Dangling (env.declare name a) x := by
  unfold Expr.Dangling
  rw [Expr.mem_free_letIn, Env.lookup?_declare_eq_none]
  tauto

/-- The dangling names of a group are those of its functions and its body, with its own names bound. -/
theorem dangling_group {bs : List Binding} {body : Expr} {ps gs : List Scheme}
    (hp : ps.length = bs.length) (hg : gs.length = bs.length) :
    (Expr.group bs body ty).Dangling env x ↔
      (∃ b ∈ bs, ∃ f, b.func? = some f ∧ f.Dangling (env.extendGroup bs ps) x) ∨
        body.Dangling (env.extendGroup bs gs) x := by
  unfold Expr.Dangling
  rw [Expr.mem_free_group, Env.lookup?_extendGroup_eq_none hp, Env.lookup?_extendGroup_eq_none hg]
  constructor
  · rintro ⟨⟨⟨b, hb, f, hf, hx⟩ | hx, hn⟩, hl⟩
    · exact .inl ⟨b, hb, f, hf, hx, hn, hl⟩
    · exact .inr ⟨hx, hn, hl⟩
  · rintro (⟨b, hb, f, hf, hx, hn, hl⟩ | ⟨hx, hn, hl⟩)
    · exact ⟨⟨.inl ⟨b, hb, f, hf, hx⟩, hn⟩, hl⟩
    · exact ⟨⟨.inr hx, hn⟩, hl⟩

theorem dangling_array {item : Ty} {items : List Expr} :
    (Expr.array item items ty).Dangling env x ↔ ∃ e ∈ items, e.Dangling env x := by
  unfold Expr.Dangling
  rw [Expr.mem_free_array]
  grind

theorem dangling_seq {effect value : Expr} :
    (Expr.seq effect value ty).Dangling env x ↔ effect.Dangling env x ∨ value.Dangling env x := by
  unfold Expr.Dangling
  rw [Expr.mem_free_seq]
  tauto

/-- A name is free in the items of a block and the environment does not bind it. -/
def DanglingItems (es : List Expr) (env : Env) (x : String) : Prop :=
  x ∈ Expr.freeItems es ∧ env.lookup? x = none

theorem dangling_block {items : List Expr} :
    (Expr.block items ty).Dangling env x ↔ DanglingItems items env x := by
  rw [Expr.Dangling, Expr.free, DanglingItems]

theorem danglingItems_last {e : Expr} : DanglingItems [e] env x ↔ e.Dangling env x := by
  rw [DanglingItems, Expr.mem_freeItems_cons, Expr.freeItems_nil, Expr.Dangling]
  simp

/-- What an item binds is bound in the environment of the rest. -/
theorem danglingItems_cons {e d : Expr} {es : List Expr} (h : (infer env t e).Yields run d run') :
    DanglingItems (e :: es) env x ↔ e.Dangling env x ∨ DanglingItems es (env.after d) x := by
  unfold DanglingItems Expr.Dangling
  rw [Expr.mem_freeItems_cons, Env.lookup?_after_eq_none, infer_boundAfter h]
  tauto

/-! ## What is inferred -/

/-- Inferring the expression ends well only if the environment binds its free names. -/
def Binds (e : Expr) : Prop :=
  ∀ {env : Env} {t : Ty} {run run' : Run} {d : Expr}, (infer env t e).Yields run d run' →
    ∀ x, ¬ e.Dangling env x

theorem inferAll_binds {es ds : List Expr} (ih : ∀ e ∈ es, Binds e)
    (h : (inferAll env t es).Yields run ds run') : ∀ x, ¬ ∃ e ∈ es, e.Dangling env x := by
  induction es generalizing run ds with
  | nil => simp
  | cons e es ihs =>
    rw [List.forall_mem_cons] at ih
    obtain ⟨d, run₁, ds, hd, hds, rfl⟩ := inferAll_cons.mp h
    intro x
    rw [List.exists_mem_cons_iff]
    rintro (hx | hx)
    · exact ih.1 hd x hx
    · exact ihs ih.2 hds x hx

theorem inferEach_binds {ts : List Ty} {es ds : List Expr} (hlen : ts.length = es.length)
    (ih : ∀ e ∈ es, Binds e) (h : (inferEach env ts es).Yields run ds run') :
    ∀ x, ¬ ∃ e ∈ es, e.Dangling env x := by
  induction es generalizing run ts ds with
  | nil => simp
  | cons e es ihs =>
    cases ts with
    | nil => cases hlen
    | cons t ts =>
      rw [List.forall_mem_cons] at ih
      obtain ⟨d, run₁, ds, hd, hds, rfl⟩ := inferEach_cons.mp h
      intro x
      rw [List.exists_mem_cons_iff]
      rintro (hx | hx)
      · exact ih.1 hd x hx
      · exact ihs (Nat.succ.inj hlen) ih.2 hds x hx

theorem inferItems_binds {es ds : List Expr} (hne : es ≠ []) (ih : ∀ e ∈ es, Binds e)
    (h : (inferItems env t es).Yields run ds run') : ∀ x, ¬ DanglingItems es env x := by
  induction es generalizing env run ds with
  | nil => exact absurd rfl hne
  | cons e es ihs =>
    rw [List.forall_mem_cons] at ih
    intro x
    cases es with
    | nil =>
      obtain ⟨d, hd, rfl⟩ := inferItems_last.mp h
      rw [danglingItems_last]
      exact ih.1 hd x
    | cons f es =>
      obtain ⟨d, run₁, ds, hd, hds, rfl⟩ := inferItems_cons.mp h
      rw [danglingItems_cons hd]
      rintro (hx | hx)
      · exact ih.1 hd x hx
      · exact ihs (by simp) ih.2 hds x hx

theorem inferBindings_binds {bs ts : List Binding} {ps : List Scheme} (hlen : ps.length = bs.length)
    (ih : ∀ b ∈ bs, ∀ f, b.func? = some f → Binds f)
    (h : (inferBindings env ps bs).Yields run ts run') :
    ∀ x, ¬ ∃ b ∈ bs, ∃ f, b.func? = some f ∧ f.Dangling env x := by
  induction bs generalizing run ps ts with
  | nil => simp
  | cons b bs ihs =>
    cases ps with
    | nil => cases hlen
    | cons p ps =>
      rw [List.forall_mem_cons] at ih
      obtain ⟨d, run₁, ds, hd, hds, rfl⟩ := inferBindings_cons.mp h
      obtain ⟨name, g, params, result, body, ty, qs, r, c, rfl, hf, rfl⟩ := inferBinding_yields.mp hd
      intro x
      rw [List.exists_mem_cons_iff]
      rintro (⟨_, ⟨⟩, hx⟩ | hx)
      · exact ih.1 _ rfl hf x hx
      · exact ihs (Nat.succ.inj hlen) ih.2 hds x hx

/-- Whatever is inferred has its free names bound. -/
theorem infer_binds (e : Expr) : Binds e := by
  induction e with
  | absent => exact fun h => absurd h not_infer_absent
  | other kind => exact fun h => absurd h not_infer_other
  | int value ty =>
    intro env t run run' d _ x
    simp [Expr.Dangling, Expr.free]
  | str value ty =>
    intro env t run run' d _ x
    simp [Expr.Dangling, Expr.free]
  | var name typeArgs ty =>
    intro env t run run' d h x
    obtain ⟨g, run₁, hl, _⟩ := infer_var.mp h
    rw [dangling_var, hl]
    simp
  | func params result body ty ih =>
    intro env t run run' d h x
    obtain ⟨ps, inner, run₁, r, run₂, b, run₃, hp, _, hb, _⟩ := infer_func.mp h
    rw [dangling_func hp]
    exact ih hb x
  | call callee args ty ihf iha =>
    intro env t run run' d h x
    obtain ⟨f, run₁, es, hf, hes, _⟩ := infer_call.mp h
    rw [dangling_call]
    rintro (hx | hx)
    · exact ihf hf x hx
    · exact inferEach_binds (length_freshList _ _) iha hes x hx
  | letIn name annot value body ty ihv ihb =>
    intro env t run run' d h x
    cases hab : body.isAbsent with
    | true =>
      obtain rfl := Expr.isAbsent_iff.mp hab
      obtain ⟨a, run₁, v, run₂, _, hv, _⟩ := infer_let_alone.mp h
      rw [dangling_let a]
      rintro (hx | hx)
      · exact ihv hv x hx
      · simp [Expr.Dangling, Expr.free] at hx
    | false =>
      obtain ⟨a, run₁, v, run₂, b, _, hv, hb, _⟩ := (infer_let hab).mp h
      rw [dangling_let a]
      rintro (hx | hx)
      · exact ihv hv x hx
      · exact ihb hb x hx
  | group bs body ty ihf ihb =>
    intro env t run run' d h x
    obtain ⟨ps, run₁, ts, run₂, run₃, gs, ds, notes, b, hp, ht, _, hga, hb, _⟩ := infer_group_cases h
    rw [dangling_group (placeholders_length hp) hga.length]
    rintro (hx | hx)
    · exact inferBindings_binds (placeholders_length hp) ihf ht x hx
    · exact ihb hb x hx
  | array item items ty ih =>
    intro env t run run' d h x
    obtain ⟨a, run₁, es, run₂, _, hes, _⟩ := infer_array.mp h
    rw [dangling_array]
    exact inferAll_binds ih hes x
  | seq effect value ty ihe ihv =>
    intro env t run run' d h x
    obtain ⟨f, run₁, v, hf, hv, _⟩ := infer_seq.mp h
    rw [dangling_seq]
    rintro (hx | hx)
    · exact ihe hf x hx
    · exact ihv hv x hx
  | block items ty ih =>
    intro env t run run' d h x
    obtain ⟨hne, es, hes, _⟩ := infer_block.mp h
    rw [dangling_block]
    exact inferItems_binds hne ih hes x

/-! ## Where inference is stopped -/

theorem EntersItems.dangling {env' : Env} {t' : Ty} {es : List Expr} {e : Expr}
    (h : EntersItems t env es run env' t' e run') (hx : e.Dangling env' x) : DanglingItems es env x := by
  induction h with
  | last => exact danglingItems_last.mpr hx
  | head =>
    unfold DanglingItems
    rw [Expr.mem_freeItems_cons]
    exact ⟨.inl hx.1, hx.2⟩
  | tail hd _ ih => exact (danglingItems_cons hd).mpr (.inr (ih hx))

/-- A name that dangles in a part dangles in the whole. -/
theorem Enters.dangling {env' : Env} {t' : Ty} {e e' : Expr} (h : Enters env t e run env' t' e' run')
    (hx : e'.Dangling env' x) : e.Dangling env x := by
  cases h with
  | body hp _ => exact (dangling_func hp).mpr hx
  | callee => exact dangling_call.mpr (.inl hx)
  | arg _ hin => exact dangling_call.mpr (.inr ⟨_, hin.mem, hx⟩)
  | value _ => exact (dangling_let .absent).mpr (.inl hx)
  | letBody _ _ _ => exact (dangling_let _).mpr (.inr hx)
  | function hp hin hf =>
    have hlen := placeholders_length hp
    exact (dangling_group hlen hlen).mpr (.inl ⟨_, hin.mem, _, hf, hx⟩)
  | groupBody hg _ hga =>
    exact (dangling_group (placeholders_length hg.placed) hga.length).mpr (.inr hx)
  | element _ hin => exact dangling_array.mpr ⟨_, hin.mem, hx⟩
  | effect => exact dangling_seq.mpr (.inl hx)
  | result _ => exact dangling_seq.mpr (.inr hx)
  | item hin => exact dangling_block.mpr (hin.dangling hx)

/-- A run is stopped at an unbound name only if it is one of the names. -/
def Stop.Among (D : String → Prop) : Stop → Run → Prop
  | .failed (.unbound x), _ => D x
  | _, _ => True

theorem refuse_among {D : String → Prop} {error : UnifyError} {y : Expr} :
    (refuse error y : InferM Unit).Stops (Stop.Among D) run :=
  stops_refuse (fun _ _ => trivial) fun _ => trivial

/-- The unbound name that stops a node is free in it. -/
theorem HaltsAt.among {e : Expr} {stop : Stop} (h : HaltsAt env t e run stop run') :
    stop.Among (e.Dangling env) run' := by
  cases h with
  | unbound hl => exact dangling_var.mpr ⟨rfl, hl⟩
  | typeArgument _ _ _ hstop => exact refuse_among _ _ hstop
  | unsolved _ _ hstop => exact refuse_among _ _ hstop
  | _ => trivial

theorem Stop.Among.imp {D D' : String → Prop} (hi : ∀ x, D x → D' x) {stop : Stop}
    (h : stop.Among D run) : stop.Among D' run := by
  unfold Among at h ⊢
  split at h
  · exact hi _ h
  · trivial

/-- Inference is stopped at an unbound name only if the name is free and the environment does not bind
it. -/
theorem infer_among (e : Expr) : (infer env t e).Stops (Stop.Among (e.Dangling env)) run :=
  @infer_stops_of env t run (Stop.Among (e.Dangling env))
    (fun env' _ e' _ => ∀ x, e'.Dangling env' x → e.Dangling env x)
    (fun h hin x hx => h x (hin.dangling hx)) (fun h hs => hs.among.imp h) e fun _ hx => hx

end

/-! ## Programs -/

section

variable {α : Type} {c : Context} {e : Expr} {action : InferM α}

/-- A call agrees with the free names of its program. -/
def Outcome.Scoped (o : Outcome α) (e : Expr) (env : Env) : Prop :=
  (∀ x, o.result = .error (.error (.unbound x)) → x ∈ e.freeNames ∧ env.lookup? x = none) ∧
    ∀ a, o.result = .ok a → ∀ x ∈ e.freeNames, env.lookup? x ≠ none

theorem call_scoped {env : Env} (hs : action.Stops (Stop.Among (e.Dangling env)) c.reset.run)
    (hy : ∀ a run, action.Yields c.reset.run a run → ∀ x, ¬ e.Dangling env x) :
    (c.call e action).1.Scoped e env := by
  cases he : e.isAbsent with
  | true =>
    -- there is no program, and the call is refused before anything is inferred
    rw [Context.call, he]
    constructor
    · intro x hx
      cases hx
    · intro a ha
      cases ha
  | false =>
    constructor
    · intro x hx
      obtain ⟨run, hx⟩ := (Context.call_error he).mp hx
      obtain ⟨hfree, hl⟩ : e.Dangling env x := hs _ _ hx
      exact ⟨Expr.mem_freeNames.mpr hfree, hl⟩
    · intro a ha x hx hl
      obtain ⟨run, ha⟩ := (Context.call_ok he).mp ha
      exact hy a run ha x ⟨Expr.mem_freeNames.mp hx, hl⟩

end

/-- Name analysis and inference have the same scopes. Whatever a context went through before: if a call
fails at an unbound name, then the name is free in the program and the environment does not bind it, and
if a call succeeds, then the environment binds all free names of the program. -/
theorem inference_scoped (c : Context) (e : Expr) (env : Option Env) :
    (c.infer e env).1.Scoped e (env.getD .empty) ∧
      (c.inferGeneric e env).1.Scoped e (env.getD .empty) ∧
      (c.annotate e env).1.Scoped e (env.getD .empty) ∧
      (c.annotateGeneric e env).1.Scoped e (env.getD .empty) := by
  refine @Context.calls_of _ (fun _ => ∀ x, ¬ e.Dangling (env.getD .empty) x) c e env
    (fun answer => answer.1.Scoped e (env.getD .empty)) call_scoped ?_ ?_ ?_ (fun _ h => h)
  · exact inferRoot_stops_of (infer_among e) fun _ _ _ => stops_solveFor.mpr fun _ _ _ => refuse_among
  · intro r run hr
    obtain ⟨typed, run₁, htyped, _⟩ := inferRoot_yields.mp hr
    exact infer_binds e htyped
  · exact fun t run _ => stops_close (fun _ _ => trivial) fun _ _ => trivial

/-- The value of a `let` does not see its name, and an item of a block sees the name of one before. -/
example :
    (Expr.letIn "a" .absent (.var "a" none .absent) (.var "a" none .absent) .absent).freeNames = ["a"] ∧
    (Expr.block [.letIn "a" .absent (.int 1 .absent) .absent .absent, .var "a" none .absent]
      .absent).freeNames = [] := by
  constructor <;> decide +kernel

end Polytype
