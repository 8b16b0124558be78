import Mathlib
import Polytype.Expr.Text
import Polytype.Proofs.Expr.References

/-!
# Trees with other types

Inference changes the types of a tree and keeps its form. When all types are changed by `mapTypes`, the
nodes are the changed nodes of the tree (`Expr.every_mapTypes`), and two changes by assignments are one
(`Expr.mapTypes_subst`). The types that inference gives the nodes are not printed: `Expr.PrintsAs` says
that two trees have the same text, and each form of expression carries it from the parts to the whole.
-/

namespace Polytype

namespace Expr

/-! ## Nodes -/

theorem isAbsent_mapTypes (f : Ty → Ty) (e : Expr) : (e.mapTypes f).isAbsent = e.isAbsent := by
  cases e <;> rfl

theorem every_mapTypes {f : Ty → Ty} {P : Expr → Prop} {e : Expr} :
    (e.mapTypes f).Every P ↔ e.Every fun n => P (n.mapTypes f) := by
  have hlist : ∀ {es : List Expr},
      (∀ e ∈ es, (e.mapTypes f).Every P ↔ e.Every fun n => P (n.mapTypes f)) →
      ((∀ e ∈ mapTypesList f es, e.Every P) ↔ ∀ e ∈ es, e.Every fun n => P (n.mapTypes f)) := by
    intro es hes
    rw [mapTypesList_eq, List.forall_mem_map]
    exact forall₂_congr hes
  induction e with
  | absent => exact iff_of_true every_absent every_absent
  | int value ty => rw [every_int, mapTypes, every_int]
  | str value ty => rw [every_str, mapTypes, every_str]
  | var name typeArgs ty => rw [every_var, mapTypes, every_var]
  | func params result body ty ih =>
    rw [every_func, mapTypes, every_func]
    exact and_congr Iff.rfl ih
  | call callee args ty ihf iha =>
    rw [every_call, mapTypes, every_call]
    exact and_congr Iff.rfl (and_congr ihf (hlist iha))
  | letIn name annot value body ty ihv ihb =>
    rw [every_letIn, mapTypes, every_letIn]
    exact and_congr Iff.rfl (and_congr ihv ihb)
  | group bindings body ty ihf ihb =>
    have hbindings : (∀ b ∈ mapTypesBindings f bindings, ∀ g, b.func? = some g → g.Every P) ↔
        ∀ b ∈ bindings, ∀ g, b.func? = some g → g.Every fun n => P (n.mapTypes f) := by
      rw [mapTypesBindings_eq, List.forall_mem_map]
      refine forall₂_congr fun b hb => ?_
      rw [Binding.func?_mapTypes]
      cases hg : b.func? with
      | none => simp
      | some g => simpa using ihf b hb g hg
    rw [every_group, mapTypes, every_group]
    exact and_congr Iff.rfl (and_congr hbindings ihb)
  | array item items ty ih =>
    rw [every_array, mapTypes, every_array]
    exact and_congr Iff.rfl (hlist ih)
  | seq effect value ty ihe ihv =>
    rw [every_seq, mapTypes, every_seq]
    exact and_congr Iff.rfl (and_congr ihe ihv)
  | block items ty ih =>
    rw [every_block, mapTypes, every_block]
    exact and_congr Iff.rfl (hlist ih)
  | other kind => exact iff_of_true (by simp [mapTypes, Every, visits]) (by simp [Every, visits])

/-! ## Two changes -/

/-- Variables are replaced twice. -/
theorem mapTypes_subst (τ σ : Int → Ty) (e : Expr) :
    (e.mapTypes (Ty.subst τ)).mapTypes (Ty.subst σ) =
      e.mapTypes (Ty.subst fun i => (τ i).subst σ) := by
  have hpresent : ∀ t : Ty, mapPresent (Ty.subst σ) (mapPresent (Ty.subst τ) t) =
      mapPresent (Ty.subst fun i => (τ i).subst σ) t := fun t => by
    rw [mapPresent_subst, mapPresent_subst, mapPresent_subst, Ty.subst_subst]
  have hparams : ∀ ps : List Param, (ps.map (mapParam (Ty.subst τ))).map (mapParam (Ty.subst σ)) =
      ps.map (mapParam (Ty.subst fun i => (τ i).subst σ)) := fun ps => by
    rw [List.map_map]
    exact List.map_congr_left fun p _ => congrArg (Param.mk p.name) (hpresent p.ty)
  have hlist : ∀ {es : List Expr}, (∀ e ∈ es, (e.mapTypes (Ty.subst τ)).mapTypes (Ty.subst σ) =
      e.mapTypes (Ty.subst fun i => (τ i).subst σ)) →
      mapTypesList (Ty.subst σ) (mapTypesList (Ty.subst τ) es) =
        mapTypesList (Ty.subst fun i => (τ i).subst σ) es := fun hes => by
    rw [mapTypesList_eq, mapTypesList_eq, mapTypesList_eq, List.map_map]
    exact List.map_congr_left hes
  induction e with
  | absent => rfl
  | int value ty => rw [mapTypes, mapTypes, mapTypes, hpresent]
  | str value ty => rw [mapTypes, mapTypes, mapTypes, hpresent]
  | var name typeArgs ty =>
    rw [mapTypes, mapTypes, mapTypes, hpresent, Option.map_map]
    cases typeArgs with
    | none => rfl
    | some as =>
      refine congrArg (fun bs => var name (some bs) _) ?_
      rw [Function.comp_apply, List.map_map]
      exact List.map_congr_left fun t _ => hpresent t
  | func params result body ty ih =>
    rw [mapTypes, mapTypes, mapTypes, hparams, hpresent, hpresent, ih]
  | call callee args ty ihf iha => rw [mapTypes, mapTypes, mapTypes, ihf, hlist iha, hpresent]
  | letIn name annot value body ty ihv ihb =>
    rw [mapTypes, mapTypes, mapTypes, hpresent, ihv, ihb, hpresent]
  | group bindings body ty ihf ihb =>
    have hbindings : ∀ b ∈ bindings, mapTypesBinding (Ty.subst σ) (mapTypesBinding (Ty.subst τ) b) =
        mapTypesBinding (Ty.subst fun i => (τ i).subst σ) b := by
      intro b hb
      have hscheme : ∀ o : Option Scheme,
          (o.map (mapScheme (Ty.subst τ))).map (mapScheme (Ty.subst σ)) =
            o.map (mapScheme (Ty.subst fun i => (τ i).subst σ)) := fun o => by
        rw [Option.map_map]
        exact congrFun (congrArg Option.map (funext fun g => congrArg (Scheme.mk g.params)
          (hpresent g.body))) o
      cases b with
      | missing name scheme => rw [mapTypesBinding, mapTypesBinding, mapTypesBinding, hscheme]
      | fn name scheme params result body ty =>
        have hfunc := ihf _ hb _ rfl
        rw [mapTypes, mapTypes, mapTypes, func.injEq] at hfunc
        rw [mapTypesBinding, mapTypesBinding, mapTypesBinding, hscheme, hparams, hpresent, hpresent,
          hfunc.2.2.1]
    rw [mapTypes, mapTypes, mapTypes, mapTypesBindings_eq, mapTypesBindings_eq, mapTypesBindings_eq,
      List.map_map, ihb, hpresent]
    exact congrArg (fun bs => group bs _ _) (List.map_congr_left hbindings)
  | array item items ty ih => rw [mapTypes, mapTypes, mapTypes, hpresent, hlist ih, hpresent]
  | seq effect value ty ihe ihv => rw [mapTypes, mapTypes, mapTypes, ihe, ihv, hpresent]
  | block items ty ih => rw [mapTypes, mapTypes, mapTypes, hlist ih, hpresent]
  | other kind => rfl

/-! ## Text -/

/-- Two trees print alike. -/
def PrintsAs (d e : Expr) : Prop := ∀ callee, d.printAt callee = e.printAt callee

end Expr

/-- Two functions of groups print alike. -/
def Binding.PrintsAs (d b : Binding) : Prop := Expr.printBinding d = Expr.printBinding b

namespace Expr.PrintsAs

variable {d e b c : Expr} {t t' : Ty}

theorem print (h : d.PrintsAs e) : d.print = e.print := h false

theorem int {value : Int64} : (int value t).PrintsAs (int value t') := fun _ => rfl

theorem str {value : String} : (str value t).PrintsAs (str value t') := fun _ => rfl

theorem var {name : String} {typeArgs : Option (List Ty)} :
    (var name typeArgs t).PrintsAs (var name typeArgs t') := fun _ => rfl

theorem func {params : List Param} {result : Ty} (h : b.PrintsAs c) :
    (func params result b t).PrintsAs (func params result c t') := fun callee => by
  rw [printAt, printAt, h]

theorem lists {ds es : List Expr} (h : List.Forall₂ PrintsAs ds es) : printList ds = printList es := by
  induction h with
  | nil => rfl
  | cons h _ ih => rw [printList, printList, h, ih]

theorem call {ds es : List Expr} (h : d.PrintsAs e) (hs : List.Forall₂ PrintsAs ds es) :
    (call d ds t).PrintsAs (call e es t') := fun callee => by
  rw [printAt, printAt, h, lists hs]

theorem letAlone {name : String} {annot : Ty} (h : d.PrintsAs e) :
    (letIn name annot d .absent t).PrintsAs (letIn name annot e .absent t') := fun callee => by
  rw [printAt, h]
  rfl

theorem letIn {name : String} {annot : Ty} (h : d.PrintsAs e) (hb : b.PrintsAs c)
    (hab : b.isAbsent = false) (hac : c.isAbsent = false) :
    (letIn name annot d b t).PrintsAs (letIn name annot e c t') := fun callee => by
  rw [printAt, printAt, h, hb, hab, hac]

theorem array {item : Ty} {ds es : List Expr} (hs : List.Forall₂ PrintsAs ds es) :
    (array item ds t).PrintsAs (array item es t') := fun callee => by
  rw [printAt, printAt, lists hs]

theorem seq (h : d.PrintsAs e) (hb : b.PrintsAs c) : (seq d b t).PrintsAs (seq e c t') := fun callee => by
  rw [printAt, printAt, h, hb]

theorem block {ds es : List Expr} (hs : List.Forall₂ PrintsAs ds es) :
    (block ds t).PrintsAs (block es t') := fun callee => by
  rw [printAt, printAt, lists hs]

theorem bindings {ds bs : List Binding} (h : List.Forall₂ Binding.PrintsAs ds bs) :
    printBindings ds = printBindings bs := by
  induction h with
  | nil => rfl
  | @cons d b _ _ h _ ih =>
    have hd : printBinding d = printBinding b := h
    rw [printBindings, printBindings, hd, ih]

theorem group {ds bs : List Binding} (hs : List.Forall₂ Binding.PrintsAs ds bs) (hb : b.PrintsAs c) :
    (group ds b t).PrintsAs (group bs c t') := fun callee => by
  rw [printAt, printAt, bindings hs, hb]

end Expr.PrintsAs

theorem Binding.PrintsAs.fn {name : String} {scheme : Option Scheme} {ps qs : List Param}
    {r r' t t' : Ty} {b c : Expr} (h : (Expr.func ps r b t).PrintsAs (.func qs r' c t')) :
    (fn name scheme ps r b t).PrintsAs (fn name scheme qs r' c t') := by
  -- the text of the function comes after that of its name
  have hfn : ∀ (ps : List Param) (r : Ty) (b : Expr) (t : Ty),
      Expr.printBinding (Binding.fn name scheme ps r b t) =
        (Expr.func ps r b t).printAt false >>= fun s => .ok (name ++ schemeText scheme ++ " = " ++ s) := by
    intro ps r b t
    rw [Expr.printBinding, Expr.printAt]
    cases Expr.printAt false b with
    | error f => rfl
    | ok s => exact congrArg Except.ok String.append_assoc
  rw [Binding.PrintsAs, hfn, hfn, h false]

end Polytype
