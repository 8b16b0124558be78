import Mathlib
import Polytype.Proofs.Expr.Formed
import Polytype.Proofs.Expr.Types

/-!
# Trees without types

`Expr.erase` removes every type of a tree: annotations, generic types, type arguments and inferred types.
What is left are the nodes, with their names and values. A change of the types cannot be seen in it
(`Expr.erase_mapTypes`).
-/

namespace Polytype

/-- A parameter without its annotation. -/
def Param.erase (p : Param) : Param := { p with ty := .absent }

namespace Expr

mutual

/-- A tree without its types. -/
def erase : Expr → Expr
  | absent => absent
  | int value _ => int value .absent
  | str value _ => str value .absent
  | var name _ _ => var name none .absent
  | func params _ body _ => func (params.map Param.erase) .absent (erase body) .absent
  | call fn args _ => call (erase fn) (eraseList args) .absent
  | letIn name _ value body _ => letIn name .absent (erase value) (erase body) .absent
  | group bindings body _ => group (eraseBindings bindings) (erase body) .absent
  | array _ items _ => array .absent (eraseList items) .absent
  | seq effect value _ => seq (erase effect) (erase value) .absent
  | block items _ => block (eraseList items) .absent
  | other kind => other kind

/-- Expressions without their types. -/
def eraseList : List Expr → List Expr
  | [] => []
  | e :: es => erase e :: eraseList es

/-- A function of a group without its types. -/
def eraseBinding : Binding → Binding
  | .fn name _ params _ body _ => .fn name none (params.map Param.erase) .absent (erase body) .absent
  | .missing name _ => .missing name none

/-- The functions of a group without their types. -/
def eraseBindings : List Binding → List Binding
  | [] => []
  | b :: bs => eraseBinding b :: eraseBindings bs

end

theorem eraseList_eq (es : List Expr) : eraseList es = es.map erase := by
  induction es with
  | nil => rfl
  | cons e es ih => rw [eraseList, ih, List.map_cons]

theorem eraseBindings_eq (bs : List Binding) : eraseBindings bs = bs.map eraseBinding := by
  induction bs with
  | nil => rfl
  | cons b bs ih => rw [eraseBindings, ih, List.map_cons]

theorem erase_mapParam (f : Ty → Ty) (ps : List Param) :
    (ps.map (mapParam f)).map Param.erase = ps.map Param.erase := by
  rw [List.map_map]
  exact List.map_congr_left fun _ _ => rfl

/-- Other types leave the same tree without types. -/
theorem erase_mapTypes (f : Ty → Ty) (e : Expr) : (e.mapTypes f).erase = e.erase := by
  have hlist : ∀ {es : List Expr}, (∀ e ∈ es, (e.mapTypes f).erase = e.erase) →
      eraseList (mapTypesList f es) = eraseList es := by
    intro es hes
    rw [mapTypesList_eq, eraseList_eq, eraseList_eq, List.map_map]
    exact List.map_congr_left hes
  induction e with
  | absent | int | str | var | other => rfl
  | func params result body ty ih => rw [mapTypes, erase, erase, erase_mapParam, ih]
  | call callee args ty ihf iha => rw [mapTypes, erase, erase, ihf, hlist iha]
  | letIn name annot value body ty ihv ihb => rw [mapTypes, erase, erase, ihv, ihb]
  | group bindings body ty ihf ihb =>
    have hbindings : ∀ b ∈ bindings, eraseBinding (mapTypesBinding f b) = eraseBinding b := by
      intro b hb
      cases b with
      | missing name scheme => rfl
      | fn name scheme params result body ty =>
        have hfunc := ihf _ hb _ rfl
        rw [mapTypes, erase, erase, func.injEq] at hfunc
        rw [mapTypesBinding, eraseBinding, eraseBinding, erase_mapParam, hfunc.2.2.1]
    rw [mapTypes, erase, erase, ihb, mapTypesBindings_eq, eraseBindings_eq, eraseBindings_eq,
      List.map_map]
    exact congrArg (fun bs => group bs _ _) (List.map_congr_left hbindings)
  | array item items ty ih => rw [mapTypes, erase, erase, hlist ih]
  | seq effect value ty ihe ihv => rw [mapTypes, erase, erase, ihe, ihv]
  | block items ty ih => rw [mapTypes, erase, erase, hlist ih]

end Expr

end Polytype
