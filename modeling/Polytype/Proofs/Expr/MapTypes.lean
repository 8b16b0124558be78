import Mathlib
import Polytype.Proofs.Expr.Formed
import Polytype.Proofs.Fault

/-!
# Changing the types of a tree

`Expr.mapTypes f` changes every type of a tree by a function. It is what the change node by node returns if
the function returns for every type and the tree is well formed (`Expr.Formed.retype`).
-/

namespace Polytype

namespace Expr

/-- Changes a type that is present. -/
def mapPresent (f : Ty → Ty) : Ty → Ty
  | .absent => .absent
  | t => f t

/-- Changes the annotation of a parameter. -/
def mapParam (f : Ty → Ty) (p : Param) : Param := { p with ty := mapPresent f p.ty }

/-- Changes the type under the parameters of a scheme. -/
def mapScheme (f : Ty → Ty) (g : Scheme) : Scheme := { g with body := mapPresent f g.body }

mutual

/-- Changes every type of a tree: annotations, type arguments and inferred types. -/
def mapTypes (f : Ty → Ty) : Expr → Expr
  | absent => absent
  | int value ty => int value (mapPresent f ty)
  | str value ty => str value (mapPresent f ty)
  | var name typeArgs ty =>
    var name (typeArgs.map (·.map (mapPresent f))) (mapPresent f ty)
  | func params result body ty =>
    func (params.map (mapParam f)) (mapPresent f result) (mapTypes f body) (mapPresent f ty)
  | call fn args ty => call (mapTypes f fn) (mapTypesList f args) (mapPresent f ty)
  | letIn name annot value body ty =>
    letIn name (mapPresent f annot) (mapTypes f value) (mapTypes f body) (mapPresent f ty)
  | group bindings body ty =>
    group (mapTypesBindings f bindings) (mapTypes f body) (mapPresent f ty)
  | array item items ty => array (mapPresent f item) (mapTypesList f items) (mapPresent f ty)
  | seq effect value ty => seq (mapTypes f effect) (mapTypes f value) (mapPresent f ty)
  | block items ty => block (mapTypesList f items) (mapPresent f ty)
  | other kind => other kind

def mapTypesList (f : Ty → Ty) : List Expr → List Expr
  | [] => []
  | e :: es => mapTypes f e :: mapTypesList f es

/-- Changes every type of a function of a group. -/
def mapTypesBinding (f : Ty → Ty) : Binding → Binding
  | .fn name scheme params result body ty =>
    .fn name (scheme.map (mapScheme f)) (params.map (mapParam f)) (mapPresent f result)
      (mapTypes f body) (mapPresent f ty)
  | .missing name scheme => .missing name (scheme.map (mapScheme f))

def mapTypesBindings (f : Ty → Ty) : List Binding → List Binding
  | [] => []
  | b :: bs => mapTypesBinding f b :: mapTypesBindings f bs

end

theorem mapTypesList_eq (f : Ty → Ty) (es : List Expr) : mapTypesList f es = es.map (mapTypes f) := by
  induction es with
  | nil => rfl
  | cons e es ih => rw [mapTypesList, ih, List.map_cons]

theorem mapTypesBindings_eq (f : Ty → Ty) (bs : List Binding) :
    mapTypesBindings f bs = bs.map (mapTypesBinding f) := by
  induction bs with
  | nil => rfl
  | cons b bs ih => rw [mapTypesBindings, ih, List.map_cons]

end Expr

namespace Binding

variable {f : Ty → Ty}

theorem name_mapTypes (b : Binding) : (Expr.mapTypesBinding f b).name = b.name := by
  cases b <;> rfl

theorem scheme_mapTypes (b : Binding) :
    (Expr.mapTypesBinding f b).scheme = b.scheme.map (Expr.mapScheme f) := by
  cases b <;> rfl

theorem func?_mapTypes (b : Binding) :
    (Expr.mapTypesBinding f b).func? = b.func?.map (Expr.mapTypes f) := by
  cases b <;> rfl

end Binding

namespace Expr

/-- With other types a tree is as well formed as before. -/
theorem Formed.mapTypes {e : Expr} (h : e.Formed) (f : Ty → Ty) : (e.mapTypes f).Formed := by
  have hlist : ∀ {es : List Expr}, (∀ e ∈ es, (e.mapTypes f).Formed) →
      ∀ e ∈ mapTypesList f es, e.Formed := by
    intro es hes
    rw [mapTypesList_eq]
    exact List.forall_mem_map.mpr hes
  induction h with
  | int => exact .int _ _
  | str => exact .str _ _
  | var => exact .var _ _ _
  | func _ ih => rw [Expr.mapTypes]; exact .func ih
  | call _ _ ihf iha => rw [Expr.mapTypes]; exact .call ihf (hlist iha)
  | letAlone _ ih => rw [Expr.mapTypes, Expr.mapTypes]; exact .letAlone ih
  | letIn _ _ ihv ihb => rw [Expr.mapTypes]; exact .letIn ihv ihb
  | group hfn _ _ ihf ihb =>
    rw [Expr.mapTypes, mapTypesBindings_eq]
    refine .group ?_ ?_ ihb
    · refine List.forall_mem_map.mpr fun b hb => ?_
      rw [Binding.func?_mapTypes, Option.isSome_map]
      exact hfn b hb
    · refine List.forall_mem_map.mpr fun b hb g hg => ?_
      rw [Binding.func?_mapTypes, Option.map_eq_some_iff] at hg
      obtain ⟨g', hg', rfl⟩ := hg
      exact ihf b hb g' hg'
  | array _ ih => rw [Expr.mapTypes]; exact .array (hlist ih)
  | seq _ _ ihe ihv => rw [Expr.mapTypes]; exact .seq ihe ihv
  | block _ ih => rw [Expr.mapTypes]; exact .block (hlist ih)

theorem mapPresent_of_absent {f : Ty → Ty} (hf : f .absent = .absent) : mapPresent f = f := by
  funext t
  cases t with
  | absent => exact hf.symm
  | var id => rfl
  | con name args => rfl

/-- A tree whose types all stay the same stays the same. -/
theorem mapTypes_id {f : Ty → Ty} (hf : ∀ t, f t = t) (e : Expr) : e.mapTypes f = e := by
  have hpresent : ∀ t, mapPresent f t = t := fun t => by
    rw [mapPresent_of_absent (hf .absent), hf]
  have hparams : ∀ ps : List Param, ps.map (mapParam f) = ps := fun ps =>
    List.map_id'' (fun p => by rw [mapParam, hpresent]) ps
  have hlist : ∀ {es : List Expr}, (∀ e ∈ es, e.mapTypes f = e) → mapTypesList f es = es :=
    fun hes => by
      rw [mapTypesList_eq]
      exact (List.map_congr_left hes).trans (List.map_id _)
  induction e with
  | absent => rw [mapTypes]
  | int value ty => rw [mapTypes, hpresent]
  | str value ty => rw [mapTypes, hpresent]
  | var name typeArgs ty =>
    rw [mapTypes, hpresent]
    cases typeArgs with
    | none => rfl
    | some as => rw [Option.map_some, List.map_id'' hpresent]
  | func params result body ty ih => rw [mapTypes, hparams, hpresent, hpresent, ih]
  | call callee args ty ihf iha => rw [mapTypes, ihf, hlist iha, hpresent]
  | letIn name annot value body ty ihv ihb => rw [mapTypes, hpresent, ihv, ihb, hpresent]
  | group bindings body ty ihf ihb =>
    have hbindings : ∀ b ∈ bindings, mapTypesBinding f b = b := by
      intro b hb
      have hscheme : ∀ o : Option Scheme, o.map (mapScheme f) = o := fun o => by
        cases o with
        | none => rfl
        | some g => rw [Option.map_some, mapScheme, hpresent]
      cases b with
      | missing name scheme => rw [mapTypesBinding, hscheme]
      | fn name scheme params result body ty =>
        have hfunc := ihf _ hb _ rfl
        rw [mapTypes, hparams, hpresent, hpresent, func.injEq] at hfunc
        rw [mapTypesBinding, hscheme, hparams, hpresent, hpresent, hfunc.2.2.1]
    rw [mapTypes, mapTypesBindings_eq, List.map_congr_left hbindings, List.map_id', ihb, hpresent]
  | array item items ty ih => rw [mapTypes, hpresent, hlist ih, hpresent]
  | seq effect value ty ihe ihv => rw [mapTypes, ihe, ihv, hpresent]
  | block items ty ih => rw [mapTypes, hlist ih, hpresent]
  | other kind => rw [mapTypes]

/-! ## Node by node -/

theorem mapM_eq_ok {ε α β : Type} {f : α → Except ε β} {g : α → β} {l : List α}
    (h : ∀ a ∈ l, f a = .ok (g a)) : l.mapM f = .ok (l.map g) := by
  induction l with
  | nil => rfl
  | cons a l ih =>
    rw [List.forall_mem_cons] at h
    rw [List.mapM_cons, h.1, ih h.2]
    rfl

theorem retypeList_eq {f : Ty → Except Fault Ty} {g : Ty → Ty} {es : List Expr}
    (h : ∀ e ∈ es, e.retype f = .ok (e.mapTypes g)) :
    retypeList f es = .ok (mapTypesList g es) := by
  induction es with
  | nil => rfl
  | cons e es ih =>
    rw [List.forall_mem_cons] at h
    rw [retypeList, h.1, ih h.2]
    rfl

section

variable {f : Ty → Except Fault Ty} {g : Ty → Ty} (hf : ∀ t, f t = .ok (g t))

include hf

theorem retypePresent_eq (t : Ty) : retypePresent f t = .ok (mapPresent g t) := by
  cases t with
  | absent => rfl
  | var id => exact hf _
  | con name args => exact hf _

theorem retypeParams_eq (ps : List Param) : ps.mapM (retypeParam f) = .ok (ps.map (mapParam g)) := by
  refine mapM_eq_ok fun p _ => ?_
  rw [retypeParam, retypePresent_eq hf]
  rfl

theorem retypeScheme_eq (o : Option Scheme) :
    o.mapM (retypeScheme f) = .ok (o.map (mapScheme g)) := by
  cases o with
  | none => rfl
  | some c =>
    rw [Option.mapM_some, retypeScheme, retypePresent_eq hf]
    rfl

theorem retypeTypeArgs_eq (o : Option (List Ty)) :
    o.mapM (·.mapM (retypePresent f)) = .ok (o.map (·.map (mapPresent g))) := by
  cases o with
  | none => rfl
  | some as =>
    rw [Option.mapM_some, mapM_eq_ok fun t _ => retypePresent_eq hf t]
    rfl

theorem retypeBindings_eq {bs : List Binding} (hfn : ∀ b ∈ bs, b.func?.isSome = true)
    (h : ∀ b ∈ bs, ∀ e, b.func? = some e → e.retype f = .ok (e.mapTypes g)) :
    retypeBindings f bs = .ok (mapTypesBindings g bs) := by
  induction bs with
  | nil => rfl
  | cons b bs ih =>
    rw [List.forall_mem_cons] at h hfn
    have hb : retypeBinding f b = .ok (mapTypesBinding g b) := by
      cases b with
      | missing name scheme => cases hfn.1
      | fn name scheme params result body ty =>
        have hfunc := h.1 _ rfl
        rw [retype, retypeParams_eq hf, retypePresent_eq hf, retypePresent_eq hf] at hfunc
        change (retype f body >>= _) = _ at hfunc
        rw [bind_eq_ok] at hfunc
        obtain ⟨body', hbody, heq⟩ := hfunc
        cases heq
        rw [retypeBinding, retypeScheme_eq hf, retypeParams_eq hf, retypePresent_eq hf,
          retypePresent_eq hf, hbody]
        rfl
    rw [retypeBindings, hb, ih hfn.2 h.2]
    rfl

/-- A well-formed tree whose types can be changed is changed node by node. -/
theorem Formed.retype {e : Expr} (h : e.Formed) : e.retype f = .ok (e.mapTypes g) := by
  have hpresent := retypePresent_eq hf
  induction h with
  | int => rw [Expr.retype, hpresent]; rfl
  | str => rw [Expr.retype, hpresent]; rfl
  | var => rw [Expr.retype, retypeTypeArgs_eq hf, hpresent]; rfl
  | func _ ih => rw [Expr.retype, retypeParams_eq hf, hpresent, hpresent, ih]; rfl
  | call _ _ ihf iha => rw [Expr.retype, hpresent, ihf, retypeList_eq iha]; rfl
  | letAlone _ ih => rw [Expr.retype, hpresent, hpresent, ih]; rfl
  | letIn _ _ ihv ihb => rw [Expr.retype, hpresent, hpresent, ihv, ihb]; rfl
  | group hfn _ _ ihf ihb => rw [Expr.retype, hpresent, retypeBindings_eq hf hfn ihf, ihb]; rfl
  | array _ ih => rw [Expr.retype, hpresent, hpresent, retypeList_eq ih]; rfl
  | seq _ _ ihe ihv => rw [Expr.retype, hpresent, ihe, ihv]; rfl
  | block _ ih => rw [Expr.retype, hpresent, retypeList_eq ih]; rfl

end

end Expr

end Polytype
