import Mathlib
import Polytype.Proofs.Expr.Nodes
import Polytype.Proofs.Ty.Renaming

/-!
# Programs with other names for constructors

`e.Renamed h e'` says that two programs differ in the types that are given in them only, and that those of
the second are those of the first, renamed. A program in which none of the names occurs that a renaming
changes is renamed to itself, and so is everything around one annotation that is replaced by another
(`Expr.Reannotates.renamed`).
-/

namespace Polytype

/-- A parameter with a renamed annotation. -/
def Param.rename (h : String → String) (p : Param) : Param := ⟨p.name, p.ty.rename h⟩

/-! ## Programs of one shape -/

mutual

/-- The second program is the first with renamed types. What inference leaves at the nodes plays no
part. -/
inductive Expr.Renamed (h : String → String) : Expr → Expr → Prop
  | absent : Expr.Renamed h .absent .absent
  | int {value : Int64} {ty ty' : Ty} : Expr.Renamed h (.int value ty) (.int value ty')
  | str {value : String} {ty ty' : Ty} : Expr.Renamed h (.str value ty) (.str value ty')
  | var {name : String} {typeArgs : Option (List Ty)} {ty ty' : Ty} :
      Expr.Renamed h (.var name typeArgs ty)
        (.var name (typeArgs.map (List.map (Ty.rename h))) ty')
  | func {params : List Param} {result ty ty' : Ty} {body body' : Expr} :
      Expr.Renamed h body body' → Expr.Renamed h (.func params result body ty)
        (.func (params.map (Param.rename h)) (result.rename h) body' ty')
  | call {callee callee' : Expr} {args args' : List Expr} {ty ty' : Ty} :
      Expr.Renamed h callee callee' → List.Forall₂ (Expr.Renamed h) args args' →
      Expr.Renamed h (.call callee args ty) (.call callee' args' ty')
  | letIn {name : String} {annot ty ty' : Ty} {value value' body body' : Expr} :
      Expr.Renamed h value value' → Expr.Renamed h body body' →
      Expr.Renamed h (.letIn name annot value body ty)
        (.letIn name (annot.rename h) value' body' ty')
  | group {bs bs' : List Binding} {body body' : Expr} {ty ty' : Ty} :
      List.Forall₂ (Binding.Renamed h) bs bs' → Expr.Renamed h body body' →
      Expr.Renamed h (.group bs body ty) (.group bs' body' ty')
  | array {item ty ty' : Ty} {items items' : List Expr} :
      List.Forall₂ (Expr.Renamed h) items items' →
      Expr.Renamed h (.array item items ty) (.array (item.rename h) items' ty')
  | seq {effect effect' value value' : Expr} {ty ty' : Ty} : Expr.Renamed h effect effect' →
      Expr.Renamed h value value' →
      Expr.Renamed h (.seq effect value ty) (.seq effect' value' ty')
  | block {items items' : List Expr} {ty ty' : Ty} :
      List.Forall₂ (Expr.Renamed h) items items' →
      Expr.Renamed h (.block items ty) (.block items' ty')
  | other {kind : String} : Expr.Renamed h (.other kind) (.other kind)

/-- The second function of a group is the first with renamed types. -/
inductive Binding.Renamed (h : String → String) : Binding → Binding → Prop
  | fn {name : String} {g g' : Option Scheme} {params : List Param} {result ty ty' : Ty}
      {body body' : Expr} : Option.Rel (Scheme.Renamed h) g g' → Expr.Renamed h body body' →
      Binding.Renamed h (.fn name g params result body ty)
        (.fn name g' (params.map (Param.rename h)) (result.rename h) body' ty')
  | missing {name : String} {g g' : Option Scheme} : Option.Rel (Scheme.Renamed h) g g' →
      Binding.Renamed h (.missing name g) (.missing name g')

end

namespace Binding.Renamed

variable {h : String → String} {b b' : Binding}

theorem name_eq (hb : b.Renamed h b') : b'.name = b.name := by cases hb <;> rfl

theorem scheme (hb : b.Renamed h b') : Option.Rel (Scheme.Renamed h) b.scheme b'.scheme := by
  cases hb with
  | fn hg _ => exact hg
  | missing hg => exact hg

end Binding.Renamed

namespace Expr

variable {h : String → String}

/-- The constructors without arguments in the types that are given at a node. -/
def constants (n : Expr) : List String :=
  (n.annotations ++ n.typeArguments ++ n.generics.map (·.body)).flatMap Ty.consts

/-- No constructor that is given at a node is renamed. -/
def Keeps (h : String → String) (n : Expr) : Prop := ∀ c ∈ n.constants, h c = c

namespace Keeps

variable {n : Expr}

theorem annotation (hn : n.Keeps h) {t : Ty} (ht : t ∈ n.annotations) : t.rename h = t :=
  Ty.rename_eq_self fun c hc => hn c (List.mem_flatMap.mpr ⟨t, by simp [ht], hc⟩)

theorem typeArgument (hn : n.Keeps h) {t : Ty} (ht : t ∈ n.typeArguments) : t.rename h = t :=
  Ty.rename_eq_self fun c hc => hn c (List.mem_flatMap.mpr ⟨t, by simp [ht], hc⟩)

theorem generic (hn : n.Keeps h) {g : Scheme} (hg : g ∈ n.generics) : g.Renamed h g :=
  .self fun c hc => hn c (List.mem_flatMap.mpr
    ⟨g.body, List.mem_append_right _ (List.mem_map_of_mem hg), hc⟩)

theorem params {ps : List Param} {result : Ty} {body : Expr} {ty : Ty}
    (hn : (func ps result body ty).Keeps h) : ps.map (Param.rename h) = ps := by
  have hself : ∀ p ∈ ps, Param.rename h p = p := fun p hp => by
    have ht : p.ty ∈ (func ps result body ty).annotations :=
      List.mem_append_left _ (List.mem_map_of_mem hp)
    rw [Param.rename, hn.annotation ht]
  exact (List.map_congr_left hself).trans (List.map_id ps)

theorem func_result {ps : List Param} {result : Ty} {body : Expr} {ty : Ty}
    (hn : (func ps result body ty).Keeps h) : result.rename h = result :=
  hn.annotation (List.mem_append_right _ List.mem_cons_self)

end Keeps

theorem option_rel_self {α : Type} {R : α → α → Prop} {o : Option α} (ho : ∀ a, o = some a → R a a) :
    Option.Rel R o o := by
  cases o with
  | none => exact .none
  | some a => exact .some (ho a rfl)

/-- A function of a group whose parts are renamed to themselves, with perhaps another generic type. -/
theorem renamed_binding {name : String} {g g' : Option Scheme} {ps : List Param} {result ty : Ty}
    {body body' : Expr} (hf : (func ps result body ty).Keeps h)
    (hg : Option.Rel (Scheme.Renamed h) g g') (hbody : body.Renamed h body') :
    (Binding.fn name g ps result body ty).Renamed h (.fn name g' ps result body' ty) := by
  have hfn := @Binding.Renamed.fn h name g g' ps result ty ty body body' hg hbody
  rwa [hf.params, hf.func_result] at hfn

theorem Renamed.func_cases {ps : List Param} {result : Ty} {body e' : Expr} {ty : Ty}
    (hr : (Expr.func ps result body ty).Renamed h e') : ∃ body' ty',
      e' = .func (ps.map (Param.rename h)) (result.rename h) body' ty' ∧ body.Renamed h body' := by
  cases hr with
  | func hbody => exact ⟨_, _, rfl, hbody⟩

/-- A program is renamed to itself if none of its constructors is renamed. -/
theorem Renamed.self {e : Expr} (he : e.Every (Keeps h)) : e.Renamed h e := by
  induction e with
  | absent => exact .absent
  | int value ty => exact .int
  | str value ty => exact .str
  | other kind => exact .other
  | var name typeArgs ty =>
    have hn := every_var.mp he
    have hargs : typeArgs.map (List.map (Ty.rename h)) = typeArgs := by
      cases typeArgs with
      | none => rfl
      | some args =>
        refine congrArg some ((List.map_congr_left fun t ht => ?_).trans (List.map_id args))
        exact hn.typeArgument ht
    have hvar := @Renamed.var h name typeArgs ty ty
    rwa [hargs] at hvar
  | func ps result body ty ih =>
    obtain ⟨hn, hbody⟩ := every_func.mp he
    have hfunc := @Renamed.func h ps result ty ty body body (ih hbody)
    rwa [hn.params, hn.func_result] at hfunc
  | call callee args ty ihf iha =>
    obtain ⟨_, hf, ha⟩ := every_call.mp he
    exact .call (ihf hf) (List.forall₂_same.mpr fun a hm => iha a hm (ha a hm))
  | letIn name annot value body ty ihv ihb =>
    obtain ⟨hn, hv, hb⟩ := every_letIn.mp he
    have hlet := @Renamed.letIn h name annot ty ty value value body body (ihv hv) (ihb hb)
    rwa [hn.annotation List.mem_cons_self] at hlet
  | group bs body ty ihf ihb =>
    obtain ⟨hn, hf, hb⟩ := every_group.mp he
    refine .group (List.forall₂_same.mpr fun b hm => ?_) (ihb hb)
    have hg : Option.Rel (Scheme.Renamed h) b.scheme b.scheme := option_rel_self fun g hg =>
      hn.generic (List.mem_filterMap.mpr ⟨b, hm, hg⟩)
    cases b with
    | missing name g => exact .missing hg
    | fn name g ps result fbody fty =>
      obtain ⟨hfn, _⟩ := every_func.mp (hf _ hm _ rfl)
      obtain ⟨_, _, heq, hfb⟩ := (ihf _ hm _ rfl (hf _ hm _ rfl)).func_cases
      obtain ⟨_, _, rfl, _⟩ := Expr.func.inj heq
      exact renamed_binding hfn hg hfb
  | array item items ty ih =>
    obtain ⟨hn, hi⟩ := every_array.mp he
    have harr := @Renamed.array h item ty ty items items
      (List.forall₂_same.mpr fun a hm => ih a hm (hi a hm))
    rwa [hn.annotation List.mem_cons_self] at harr
  | seq effect value ty ihe ihv =>
    obtain ⟨_, he, hv⟩ := every_seq.mp he
    exact .seq (ihe he) (ihv hv)
  | block items ty ih =>
    obtain ⟨_, hi⟩ := every_block.mp he
    exact .block (List.forall₂_same.mpr fun a hm => ih a hm (hi a hm))

theorem Renamed.isAbsent {e e' : Expr} (he : e.Renamed h e') : e'.isAbsent = e.isAbsent := by
  cases he <;> rfl

theorem Renamed.boundAfter? {e e' : Expr} (he : e.Renamed h e') : e'.boundAfter? = e.boundAfter? := by
  cases he with
  | letIn _ hb => cases hb <;> rfl
  | _ => rfl

theorem Renamed.group_cases {bs bs' : List Binding} {body body' : Expr} {ty ty' : Ty}
    (hr : (Expr.group bs body ty).Renamed h (.group bs' body' ty')) :
    List.Forall₂ (Binding.Renamed h) bs bs' := by
  cases hr with
  | group hbs _ => exact hbs

/-! ## One place in a program -/

/-- The second program has another part in one place of the first. -/
inductive Replaces (R : Expr → Expr → Prop) : Expr → Expr → Prop
  | here {e e' : Expr} : R e e' → Replaces R e e'
  | func {params : List Param} {result ty : Ty} {body body' : Expr} : Replaces R body body' →
      Replaces R (.func params result body ty) (.func params result body' ty)
  | callee {callee callee' : Expr} {args : List Expr} {ty : Ty} : Replaces R callee callee' →
      Replaces R (.call callee args ty) (.call callee' args ty)
  | arg {callee a a' : Expr} {as₁ as₂ : List Expr} {ty : Ty} : Replaces R a a' →
      Replaces R (.call callee (as₁ ++ a :: as₂) ty) (.call callee (as₁ ++ a' :: as₂) ty)
  | letValue {name : String} {annot ty : Ty} {value value' body : Expr} : Replaces R value value' →
      Replaces R (.letIn name annot value body ty) (.letIn name annot value' body ty)
  | letBody {name : String} {annot ty : Ty} {value body body' : Expr} : Replaces R body body' →
      Replaces R (.letIn name annot value body ty) (.letIn name annot value body' ty)
  | function {bs₁ bs₂ : List Binding} {name : String} {g : Option Scheme} {params : List Param}
      {result fty ty : Ty} {fbody fbody' body : Expr} : Replaces R fbody fbody' →
      Replaces R (.group (bs₁ ++ .fn name g params result fbody fty :: bs₂) body ty)
        (.group (bs₁ ++ .fn name g params result fbody' fty :: bs₂) body ty)
  | groupBody {bs : List Binding} {body body' : Expr} {ty : Ty} : Replaces R body body' →
      Replaces R (.group bs body ty) (.group bs body' ty)
  | item {item ty : Ty} {a a' : Expr} {as₁ as₂ : List Expr} : Replaces R a a' →
      Replaces R (.array item (as₁ ++ a :: as₂) ty) (.array item (as₁ ++ a' :: as₂) ty)
  | effect {effect effect' value : Expr} {ty : Ty} : Replaces R effect effect' →
      Replaces R (.seq effect value ty) (.seq effect' value ty)
  | value {effect value value' : Expr} {ty : Ty} : Replaces R value value' →
      Replaces R (.seq effect value ty) (.seq effect value' ty)
  | blockItem {a a' : Expr} {as₁ as₂ : List Expr} {ty : Ty} : Replaces R a a' →
      Replaces R (.block (as₁ ++ a :: as₂) ty) (.block (as₁ ++ a' :: as₂) ty)

/-- The second group gives one of its functions another generic type. -/
inductive Regroups (g g' : Scheme) : Expr → Expr → Prop
  | intro {bs₁ bs₂ : List Binding} {name : String} {params : List Param} {result fty ty : Ty}
      {fbody body : Expr} :
      Regroups g g' (.group (bs₁ ++ .fn name (some g) params result fbody fty :: bs₂) body ty)
        (.group (bs₁ ++ .fn name (some g') params result fbody fty :: bs₂) body ty)

/-- The second program gives one function of a group another generic type. -/
abbrev Reannotates (g g' : Scheme) : Expr → Expr → Prop := Replaces (Regroups g g')

theorem Reannotates.symm {g g' : Scheme} {e e' : Expr} (hr : Reannotates g g' e e') :
    Reannotates g' g e' e := by
  induction hr with
  | here hr =>
    cases hr
    exact .here .intro
  | func _ ih => exact .func ih
  | callee _ ih => exact .callee ih
  | arg _ ih => exact .arg ih
  | letValue _ ih => exact .letValue ih
  | letBody _ ih => exact .letBody ih
  | function _ ih => exact .function ih
  | groupBody _ ih => exact .groupBody ih
  | item _ ih => exact .item ih
  | effect _ ih => exact .effect ih
  | value _ ih => exact .value ih
  | blockItem _ ih => exact .blockItem ih

/-- The annotation that was replaced is given at a node. -/
theorem Reannotates.exists_node {g g' : Scheme} {e e' : Expr} (hr : Reannotates g g' e e')
    {P : Expr → Prop} (he : e.Every P) : ∃ n, g ∈ n.generics ∧ P n := by
  induction hr with
  | here hr =>
    cases hr
    refine ⟨_, ?_, (every_group.mp he).1⟩
    exact List.mem_filterMap.mpr ⟨_, List.mem_append_right _ List.mem_cons_self, rfl⟩
  | func _ ih => exact ih (every_func.mp he).2
  | callee _ ih => exact ih (every_call.mp he).2.1
  | arg _ ih =>
    exact ih ((every_call.mp he).2.2 _ (List.mem_append_right _ List.mem_cons_self))
  | letValue _ ih => exact ih (every_letIn.mp he).2.1
  | letBody _ ih => exact ih (every_letIn.mp he).2.2
  | function _ ih =>
    have hf := (every_group.mp he).2.1 _ (List.mem_append_right _ List.mem_cons_self) _ rfl
    exact ih (every_func.mp hf).2
  | groupBody _ ih => exact ih (every_group.mp he).2.2
  | item _ ih => exact ih ((every_array.mp he).2 _ (List.mem_append_right _ List.mem_cons_self))
  | effect _ ih => exact ih (every_seq.mp he).2.1
  | value _ ih => exact ih (every_seq.mp he).2.2
  | blockItem _ ih =>
    exact ih ((every_block.mp he).2 _ (List.mem_append_right _ List.mem_cons_self))

theorem forall₂_replace {α : Type} {R : α → α → Prop} {l₁ l₂ : List α} {a a' : α}
    (h₁ : ∀ x ∈ l₁, R x x) (ha : R a a') (h₂ : ∀ x ∈ l₂, R x x) :
    List.Forall₂ R (l₁ ++ a :: l₂) (l₁ ++ a' :: l₂) :=
  List.rel_append (List.forall₂_same.mpr h₁) (.cons ha (List.forall₂_same.mpr h₂))

theorem forall_mem_middle {α : Type} {P : α → Prop} {l₁ l₂ : List α} {a : α}
    (h : ∀ x ∈ l₁ ++ a :: l₂, P x) : (∀ x ∈ l₁, P x) ∧ P a ∧ ∀ x ∈ l₂, P x := by
  rw [List.forall_mem_append, List.forall_mem_cons] at h
  exact h

/-- The functions of a group around one of them are renamed to themselves. -/
theorem renamed_bindings {bs₁ bs₂ : List Binding} {b b' : Binding} {body : Expr} {ty : Ty}
    (he : (group (bs₁ ++ b :: bs₂) body ty).Every (Keeps h)) (hb : b'.Renamed h b) :
    List.Forall₂ (Binding.Renamed h) (bs₁ ++ b' :: bs₂) (bs₁ ++ b :: bs₂) := by
  have hself := (Renamed.self he).group_cases
  obtain ⟨h₁, _, h₂⟩ := forall_mem_middle (List.forall₂_same.mp hself)
  exact forall₂_replace h₁ hb h₂

/-- Where one annotation was replaced, and the two are renamed to each other, so are the programs. -/
theorem Reannotates.renamed {g g' : Scheme} {e e' : Expr} (hr : Reannotates g g' e e')
    (hg : g'.Renamed h g) (he : e.Every (Keeps h)) : e'.Renamed h e := by
  induction hr with
  | here hr =>
    cases hr with
    | @intro bs₁ bs₂ name params result fty ty fbody body =>
      obtain ⟨_, hf, hbody⟩ := every_group.mp he
      obtain ⟨hfn, hfbody⟩ := every_func.mp (hf _ (List.mem_append_right _ List.mem_cons_self) _ rfl)
      exact .group (renamed_bindings he (renamed_binding hfn (.some hg) (.self hfbody)))
        (.self hbody)
  | @func params result ty body body' _ ih =>
    obtain ⟨hn, hbody⟩ := every_func.mp he
    have hfunc := @Renamed.func h params result ty ty body' body (ih hbody)
    rwa [hn.params, hn.func_result] at hfunc
  | callee _ ih =>
    obtain ⟨_, hf, ha⟩ := every_call.mp he
    exact .call (ih hf) (List.forall₂_same.mpr fun a hm => .self (ha a hm))
  | arg _ ih =>
    obtain ⟨_, hf, ha⟩ := every_call.mp he
    obtain ⟨h₁, ha, h₂⟩ := forall_mem_middle ha
    exact .call (.self hf) (forall₂_replace (fun a hm => .self (h₁ a hm)) (ih ha)
      fun a hm => .self (h₂ a hm))
  | @letValue name annot ty value value' body _ ih =>
    obtain ⟨hn, hv, hb⟩ := every_letIn.mp he
    have hlet := @Renamed.letIn h name annot ty ty value' value body body (ih hv) (.self hb)
    rwa [hn.annotation List.mem_cons_self] at hlet
  | @letBody name annot ty value body body' _ ih =>
    obtain ⟨hn, hv, hb⟩ := every_letIn.mp he
    have hlet := @Renamed.letIn h name annot ty ty value value body' body (.self hv) (ih hb)
    rwa [hn.annotation List.mem_cons_self] at hlet
  | @function bs₁ bs₂ name g params result fty ty fbody fbody' body _ ih =>
    obtain ⟨hn, hf, hbody⟩ := every_group.mp he
    obtain ⟨hfn, hfbody⟩ := every_func.mp (hf _ (List.mem_append_right _ List.mem_cons_self) _ rfl)
    have hscheme : Option.Rel (Scheme.Renamed h) g g := option_rel_self fun s hs =>
      hn.generic (List.mem_filterMap.mpr ⟨_, List.mem_append_right _ List.mem_cons_self, hs⟩)
    exact .group (renamed_bindings he (renamed_binding hfn hscheme (ih hfbody))) (.self hbody)
  | groupBody _ ih =>
    obtain ⟨_, _, hbody⟩ := every_group.mp he
    exact .group (Renamed.self he).group_cases (ih hbody)
  | @item item ty a a' as₁ as₂ _ ih =>
    obtain ⟨hn, ha⟩ := every_array.mp he
    obtain ⟨h₁, ha, h₂⟩ := forall_mem_middle ha
    have harr := @Renamed.array h item ty ty _ _ (forall₂_replace (fun a hm => .self (h₁ a hm))
      (ih ha) fun a hm => .self (h₂ a hm))
    rwa [hn.annotation List.mem_cons_self] at harr
  | effect _ ih =>
    obtain ⟨_, he, hv⟩ := every_seq.mp he
    exact .seq (ih he) (.self hv)
  | value _ ih =>
    obtain ⟨_, he, hv⟩ := every_seq.mp he
    exact .seq (.self he) (ih hv)
  | blockItem _ ih =>
    obtain ⟨h₁, ha, h₂⟩ := forall_mem_middle (every_block.mp he).2
    exact .block (forall₂_replace (fun a hm => .self (h₁ a hm)) (ih ha)
      fun a hm => .self (h₂ a hm))

end Expr

end Polytype
