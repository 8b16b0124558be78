import Mathlib
import Polytype.Proofs.Env
import Polytype.Proofs.Expr.Nodes
import Polytype.Proofs.Ty.Vocabulary
import Polytype.Proofs.Typing.Judgment

/-!
# Annotated trees

`Checks Γ d t` says that the tree `d` has the type `t` by what it is annotated with: all parameters,
results, `let`s, arrays and functions of groups have their annotations, which are whole types, and what
stands at a node agrees with those below it. Nothing is generalised. The functions of a group are bound
to the generic types that the group gives them, in the body and in the functions themselves, and a
function has the type under the parameters of its generic type.

A tree that checks still checks when names are bound to more general types (`Checks.weaken`).
-/

namespace Polytype

mutual

/-- An annotated tree has a type in an environment. -/
inductive Checks : Env → Expr → Ty → Prop
  | int {Γ : Env} {value : Int64} {ty : Ty} : Checks Γ (.int value ty) .int
  | str {Γ : Env} {value : String} {ty : Ty} : Checks Γ (.str value ty) .string
  | var {Γ : Env} {name : String} {ty : Ty} {g : Scheme} {args : List Ty} :
      Γ.lookup? name = some (some g) → args.length = g.params.length →
      Checks Γ (.var name none ty) (g.apply args)
  | func {Γ : Env} {params : List Param} {result : Ty} {body : Expr} {ty : Ty} :
      (∀ p ∈ params, p.ty.Whole) → result.Whole → Checks (Γ.declareParams params) body result →
      Checks Γ (.func params result body ty) (.function (params.map (·.ty)) result)
  | call {Γ : Env} {callee : Expr} {args : List Expr} {ts : List Ty} {t ty : Ty} :
      Checks Γ callee (.function ts t) → ChecksEach Γ args ts → Checks Γ (.call callee args ty) t
  | letIn {Γ : Env} {name : String} {annot t ty : Ty} {value body : Expr} :
      body.isAbsent = false → annot.Whole → Checks Γ value annot →
      Checks (Γ.declare name annot) body t → Checks Γ (.letIn name annot value body ty) t
  | letAlone {Γ : Env} {name : String} {annot ty : Ty} {value : Expr} :
      annot.Whole → Checks Γ value annot → Checks Γ (.letIn name annot value .absent ty) annot
  | group {Γ : Env} {bindings : List Binding} {gs : List Scheme} {body : Expr} {t ty : Ty} :
      ChecksFunctions (Γ.extendGroup bindings gs) bindings gs →
      Checks (Γ.extendGroup bindings gs) body t → Checks Γ (.group bindings body ty) t
  | array {Γ : Env} {item ty : Ty} {items : List Expr} :
      item.Whole → (∀ e ∈ items, Checks Γ e item) → Checks Γ (.array item items ty) (.array item)
  | seq {Γ : Env} {effect value : Expr} {u t ty : Ty} :
      Checks Γ effect u → Checks Γ value t → Checks Γ (.seq effect value ty) t
  | block {Γ : Env} {items : List Expr} {t ty : Ty} :
      ChecksItems Γ items t → Checks Γ (.block items ty) t

/-- Annotated trees have a type each. -/
inductive ChecksEach : Env → List Expr → List Ty → Prop
  | nil {Γ : Env} : ChecksEach Γ [] []
  | cons {Γ : Env} {e : Expr} {es : List Expr} {t : Ty} {ts : List Ty} :
      Checks Γ e t → ChecksEach Γ es ts → ChecksEach Γ (e :: es) (t :: ts)

/-- The items of a block have types, and the last of them the type of the block. -/
inductive ChecksItems : Env → List Expr → Ty → Prop
  | last {Γ : Env} {e : Expr} {t : Ty} : Checks Γ e t → ChecksItems Γ [e] t
  | cons {Γ : Env} {e f : Expr} {es : List Expr} {u t : Ty} :
      Checks Γ e u → ChecksItems (Γ.after e) (f :: es) t → ChecksItems Γ (e :: f :: es) t

/-- The functions of a group have the types of the generic types that they are annotated with. -/
inductive ChecksFunctions : Env → List Binding → List Scheme → Prop
  | nil {Γ : Env} : ChecksFunctions Γ [] []
  | cons {Γ : Env} {b : Binding} {f : Expr} {g : Scheme} {bs : List Binding} {gs : List Scheme} :
      b.scheme = some g → b.func? = some f → g.body.Whole → Checks Γ f g.body →
      ChecksFunctions Γ bs gs → ChecksFunctions Γ (b :: bs) (g :: gs)

end

/-! ## More general environments -/

/-- An environment that binds the same names, to types with at least the same instances. -/
abbrev Env.AtLeast (Γ' Γ : Env) : Prop := Γ'.Rel (fun _ => Scheme.AtLeast .var) Γ

namespace Env.AtLeast

variable {Γ Γ' : Env}

theorem refl_scheme (g : Scheme) : Scheme.AtLeast .var g g := fun args ha =>
  ⟨args, ha, Scheme.applyUnder_eq_apply (fun _ _ => rfl) args⟩

theorem refl (Γ : Env) : Γ.AtLeast Γ := by
  intro x
  cases Γ.lookup? x with
  | none => exact .none
  | some o =>
    cases o with
    | none => exact .some .none
    | some g => exact .some (.some (refl_scheme g))

theorem extend (h : Γ'.AtLeast Γ) (x : String) (g : Scheme) :
    (Γ'.extend x (some g)).AtLeast (Γ.extend x (some g)) :=
  Rel.extend h (refl_scheme g) fun _ _ _ _ hs => hs

theorem declareParams (h : Γ'.AtLeast Γ) (params : List Param) :
    (Γ'.declareParams params).AtLeast (Γ.declareParams params) := by
  induction params generalizing Γ Γ' with
  | nil => exact h
  | cons p ps ih => exact ih (h.extend p.name (.mono p.ty))

theorem after (h : Γ'.AtLeast Γ) (e : Expr) : (Γ'.after e).AtLeast (Γ.after e) := by
  cases e with
  | letIn name annot value body ty =>
    cases body with
    | absent => exact h.extend name (.mono annot)
    | _ => exact h
  | _ => exact h

theorem extendGroup (h : Γ'.AtLeast Γ) (bs : List Binding) (gs : List Scheme) :
    (Γ'.extendGroup bs gs).AtLeast (Γ.extendGroup bs gs) :=
  Rel.extendGroup h rfl (List.forall₂_same.mpr fun g _ => refl_scheme g) fun _ _ _ _ hs => hs

end Env.AtLeast

/-- The tree checks in every environment that is at least as general. -/
def Weakens (e : Expr) : Prop :=
  ∀ {Γ Γ' : Env} {t : Ty}, Checks Γ e t → Γ'.AtLeast Γ → Checks Γ' e t

section

variable {Γ Γ' : Env}

theorem ChecksEach.weaken {es : List Expr} {ts : List Ty} (ih : ∀ e ∈ es, Weakens e)
    (h : ChecksEach Γ es ts) (hΓ : Γ'.AtLeast Γ) : ChecksEach Γ' es ts := by
  induction es generalizing ts with
  | nil =>
    cases h
    exact .nil
  | cons e es ihs =>
    cases h with
    | cons h hrest =>
      rw [List.forall_mem_cons] at ih
      exact .cons (ih.1 h hΓ) (ihs ih.2 hrest)

theorem ChecksItems.weaken {es : List Expr} {t : Ty} (ih : ∀ e ∈ es, Weakens e)
    (h : ChecksItems Γ es t) (hΓ : Γ'.AtLeast Γ) : ChecksItems Γ' es t := by
  induction es generalizing Γ Γ' with
  | nil => cases h
  | cons e es ihs =>
    rw [List.forall_mem_cons] at ih
    cases h with
    | last h => exact .last (ih.1 h hΓ)
    | cons h hrest => exact .cons (ih.1 h hΓ) (ihs ih.2 hrest (hΓ.after e))

theorem ChecksFunctions.weaken {bs : List Binding} {gs : List Scheme}
    (ih : ∀ b ∈ bs, ∀ f, b.func? = some f → Weakens f) (h : ChecksFunctions Γ bs gs)
    (hΓ : Γ'.AtLeast Γ) : ChecksFunctions Γ' bs gs := by
  induction bs generalizing gs with
  | nil =>
    cases h
    exact .nil
  | cons b bs ihs =>
    cases h with
    | cons hs hf hw h hrest =>
      rw [List.forall_mem_cons] at ih
      exact .cons hs hf hw (ih.1 _ hf h hΓ) (ihs ih.2 hrest)

theorem Checks.weaken (e : Expr) : Weakens e := by
  induction e with
  | absent =>
    intro Γ Γ' t h
    cases h
  | other kind =>
    intro Γ Γ' t h
    cases h
  | int value ty =>
    intro Γ Γ' t h _
    cases h
    exact .int
  | str value ty =>
    intro Γ Γ' t h _
    cases h
    exact .str
  | var name typeArgs ty =>
    intro Γ Γ' t h hΓ
    cases h with
    | @var _ _ _ g args hg hlen =>
      -- the one place where the environment is read: the same type, at other arguments
      obtain ⟨g', hg', hat⟩ := hΓ.lookup_right hg
      obtain ⟨args', hlen', heq⟩ := hat args hlen
      rw [← heq, Scheme.applyUnder_eq_apply fun _ _ => rfl]
      exact .var hg' hlen'
  | func params result body ty ih =>
    intro Γ Γ' t h hΓ
    cases h with
    | func hp hr hb => exact .func hp hr (ih hb (hΓ.declareParams params))
  | call callee args ty ihf iha =>
    intro Γ Γ' t h hΓ
    cases h with
    | call hf has => exact .call (ihf hf hΓ) (has.weaken iha hΓ)
  | letIn name annot value body ty ihv ihb =>
    intro Γ Γ' t h hΓ
    cases h with
    | letIn hab hw hv hb => exact .letIn hab hw (ihv hv hΓ) (ihb hb (hΓ.extend name (.mono annot)))
    | letAlone hw hv => exact .letAlone hw (ihv hv hΓ)
  | group bindings body ty ihf ihb =>
    intro Γ Γ' t h hΓ
    cases h with
    | @group _ _ gs _ _ _ hfs hb =>
      have hΓg := hΓ.extendGroup bindings gs
      exact .group (hfs.weaken ihf hΓg) (ihb hb hΓg)
  | array item items ty ih =>
    intro Γ Γ' t h hΓ
    cases h with
    | array hw hes => exact .array hw fun e he => ih e he (hes e he) hΓ
  | seq effect value ty ihe ihv =>
    intro Γ Γ' t h hΓ
    cases h with
    | seq he hv => exact .seq (ihe he hΓ) (ihv hv hΓ)
  | block items ty ih =>
    intro Γ Γ' t h hΓ
    cases h with
    | block hes => exact .block (hes.weaken ih hΓ)

theorem Checks.of_letIn {name : String} {annot t ty : Ty} {value body : Expr}
    (h : Checks Γ (.letIn name annot value body ty) t) (hb : body.isAbsent = false) :
    Checks Γ value annot ∧ Checks (Γ.declare name annot) body t := by
  cases h with
  | letIn _ _ hv hb => exact ⟨hv, hb⟩
  | letAlone => cases hb

/-! ## What a tree is annotated with -/

/-- The annotations at a node are whole types, and no type arguments are given. -/
structure Expr.FullyAnnotated (n : Expr) : Prop where
  annotations : ∀ a ∈ n.annotations, a.Whole
  typeArguments : n.typeArguments = []
  generics : ∀ g ∈ n.generics, g.body.Whole

theorem ChecksEach.length {es : List Expr} {ts : List Ty} (h : ChecksEach Γ es ts) :
    ts.length = es.length := by
  induction es generalizing ts with
  | nil =>
    cases h
    rfl
  | cons e es ih =>
    cases h with
    | cons _ hrest => rw [List.length_cons, List.length_cons, ih hrest]

theorem ChecksEach.mem {es : List Expr} {ts : List Ty} (h : ChecksEach Γ es ts) :
    ∀ e ∈ es, ∃ t, Checks Γ e t := by
  induction es generalizing ts with
  | nil => simp
  | cons e es ih =>
    cases h with
    | cons h hrest => exact List.forall_mem_cons.mpr ⟨⟨_, h⟩, ih hrest⟩

theorem ChecksItems.mem {es : List Expr} {t : Ty} (h : ChecksItems Γ es t) :
    ∀ e ∈ es, ∃ Δ u, Checks Δ e u := by
  induction es generalizing Γ with
  | nil => cases h
  | cons e es ih =>
    cases h with
    | last h => exact List.forall_mem_cons.mpr ⟨⟨_, _, h⟩, by simp⟩
    | cons h hrest => exact List.forall_mem_cons.mpr ⟨⟨_, _, h⟩, ih hrest⟩

/-- The functions of a group are annotated with the generic types that they are bound to. -/
theorem ChecksFunctions.schemes {bs : List Binding} {gs : List Scheme} (h : ChecksFunctions Γ bs gs) :
    bs.map (·.scheme) = gs.map some := by
  induction bs generalizing gs with
  | nil =>
    cases h
    rfl
  | cons b bs ih =>
    cases h with
    | cons hs _ _ _ hrest => rw [List.map_cons, List.map_cons, ih hrest, hs]

theorem ChecksFunctions.mem {bs : List Binding} {gs : List Scheme} (h : ChecksFunctions Γ bs gs) :
    ∀ b ∈ bs, ∃ g f, b.scheme = some g ∧ b.func? = some f ∧ g.body.Whole ∧ Checks Γ f g.body := by
  induction bs generalizing gs with
  | nil => simp
  | cons b bs ih =>
    cases h with
    | cons hs hf hw h hrest => exact List.forall_mem_cons.mpr ⟨⟨_, _, hs, hf, hw, h⟩, ih hrest⟩

/-- A tree that checks has all its annotations. -/
theorem Checks.fullyAnnotated {e : Expr} {t : Ty} (h : Checks Γ e t) :
    e.Every Expr.FullyAnnotated := by
  induction e generalizing Γ t with
  | absent => exact Expr.every_absent
  | other kind => cases h
  | int value ty => exact Expr.every_int.mpr ⟨by simp [Expr.annotations], rfl, by simp [Expr.generics]⟩
  | str value ty => exact Expr.every_str.mpr ⟨by simp [Expr.annotations], rfl, by simp [Expr.generics]⟩
  | var name typeArgs ty =>
    cases h
    exact Expr.every_var.mpr ⟨by simp [Expr.annotations], rfl, by simp [Expr.generics]⟩
  | func params result body ty ih =>
    cases h with
    | func hp hr hb =>
      refine Expr.every_func.mpr ⟨⟨fun a ha => ?_, rfl, by simp [Expr.generics]⟩, ih hb⟩
      rcases List.mem_append.mp ha with ha | ha
      · obtain ⟨p, hp', rfl⟩ := List.mem_map.mp ha
        exact hp p hp'
      · rw [List.mem_singleton.mp ha]
        exact hr
  | call callee args ty ihf iha =>
    cases h with
    | call hf has =>
      refine Expr.every_call.mpr ⟨⟨by simp [Expr.annotations], rfl, by simp [Expr.generics]⟩, ihf hf,
        fun a ha => ?_⟩
      obtain ⟨u, hu⟩ := has.mem a ha
      exact iha a ha hu
  | letIn name annot value body ty ihv ihb =>
    cases h with
    | letIn hab hw hv hb =>
      exact Expr.every_letIn.mpr ⟨⟨by simpa [Expr.annotations] using hw, rfl, by simp [Expr.generics]⟩,
        ihv hv, ihb hb⟩
    | letAlone hw hv =>
      exact Expr.every_letIn.mpr ⟨⟨by simpa [Expr.annotations] using hw, rfl, by simp [Expr.generics]⟩,
        ihv hv, Expr.every_absent⟩
  | group bindings body ty ihf ihb =>
    cases h with
    | group hfs hb =>
      refine Expr.every_group.mpr ⟨⟨by simp [Expr.annotations], rfl, fun g hg => ?_⟩, fun b hb f hf => ?_,
        ihb hb⟩
      · obtain ⟨b, hb, hs⟩ := List.mem_filterMap.mp hg
        obtain ⟨g', f, hs', _, hw, _⟩ := hfs.mem b hb
        rw [hs] at hs'
        cases hs'
        exact hw
      · obtain ⟨g, f', _, hf', _, hc⟩ := hfs.mem b hb
        rw [hf] at hf'
        cases hf'
        exact ihf b hb f hf hc
  | array item items ty ih =>
    cases h with
    | array hw hes =>
      exact Expr.every_array.mpr ⟨⟨by simpa [Expr.annotations] using hw, rfl, by simp [Expr.generics]⟩,
        fun e he => ih e he (hes e he)⟩
  | seq effect value ty ihe ihv =>
    cases h with
    | seq he hv =>
      exact Expr.every_seq.mpr ⟨⟨by simp [Expr.annotations], rfl, by simp [Expr.generics]⟩, ihe he,
        ihv hv⟩
  | block items ty ih =>
    cases h with
    | block hes =>
      refine Expr.every_block.mpr ⟨⟨by simp [Expr.annotations], rfl, by simp [Expr.generics]⟩,
        fun e he => ?_⟩
      obtain ⟨Δ, u, hu⟩ := hes.mem e he
      exact ih e he hu

end

end Polytype
