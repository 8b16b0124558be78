import Mathlib
import Polytype.Expr.Text
import Polytype.Proofs.Expr.Nodes
import Polytype.Proofs.Fault

/-!
# Well-formed programs

A program is well formed if nothing is missing in it but the body of a `let`, which binds for the rest
of its block then, and all nodes are of known kinds. A walk through a well-formed program meets no
fault, and it can be copied and printed.
-/

namespace Polytype.Expr

/-- Nothing is missing but the bodies of `let`s, and all kinds are known. -/
inductive Formed : Expr → Prop
  | int (value : Int64) (ty : Ty) : Formed (.int value ty)
  | str (value : String) (ty : Ty) : Formed (.str value ty)
  | var (name : String) (typeArgs : Option (List Ty)) (ty : Ty) : Formed (.var name typeArgs ty)
  | func {params : List Param} {result : Ty} {body : Expr} {ty : Ty} :
      Formed body → Formed (.func params result body ty)
  | call {callee : Expr} {args : List Expr} {ty : Ty} :
      Formed callee → (∀ a ∈ args, Formed a) → Formed (.call callee args ty)
  | letAlone {name : String} {annot : Ty} {value : Expr} {ty : Ty} :
      Formed value → Formed (.letIn name annot value .absent ty)
  | letIn {name : String} {annot : Ty} {value body : Expr} {ty : Ty} :
      Formed value → Formed body → Formed (.letIn name annot value body ty)
  | group {bindings : List Binding} {body : Expr} {ty : Ty} :
      (∀ b ∈ bindings, b.func?.isSome = true) →
      (∀ b ∈ bindings, ∀ f, b.func? = some f → Formed f) → Formed body →
      Formed (.group bindings body ty)
  | array {item : Ty} {items : List Expr} {ty : Ty} :
      (∀ e ∈ items, Formed e) → Formed (.array item items ty)
  | seq {effect value : Expr} {ty : Ty} :
      Formed effect → Formed value → Formed (.seq effect value ty)
  | block {items : List Expr} {ty : Ty} : (∀ e ∈ items, Formed e) → Formed (.block items ty)

/-! ## Lists and groups -/

theorem visitsBindings_eq (bs : List Binding) : visitsBindings bs = bs.flatMap visitsBinding := by
  induction bs with
  | nil => rfl
  | cons b bs ih => rw [visitsBindings, ih, List.flatMap_cons]

/-- A function of a group is walked like the function as an expression of its own. -/
theorem visitsBinding_eq {b : Binding} {f : Expr} (h : b.func? = some f) : visitsBinding b = f.visits := by
  cases b with
  | missing name scheme => cases h
  | fn name scheme params result body ty =>
    cases h
    rw [visits, visitsBinding]

namespace Formed

variable {e : Expr}

theorem isAbsent (h : e.Formed) : e.isAbsent = false := by
  cases h <;> rfl

/-! ## Traversals -/

/-- A walk meets no fault. -/
theorem error_not_mem_visits (h : e.Formed) (f : Fault) : .error f ∉ e.visits := by
  induction h with
  | int | str | var => simp [visits]
  | func _ ih => simpa [visits] using ih
  | call _ _ ihf iha => simpa [visits, mem_visitsList, ihf] using iha
  | letAlone _ ih => simpa [visits] using ih
  | letIn _ _ ihv ihb => simp [visits, ihv, ihb]
  | @group bs body ty hfn _ _ ihf ihb =>
    have hbs : .error f ∉ bs.flatMap visitsBinding := by
      intro hm
      obtain ⟨b, hb, hm⟩ := List.mem_flatMap.mp hm
      obtain ⟨g, hg⟩ := Option.isSome_iff_exists.mp (hfn b hb)
      rw [visitsBinding_eq hg] at hm
      exact ihf b hb g hg hm
    simp [visits, visitsBindings_eq, hbs, ihb]
  | array _ ih => simpa [visits, mem_visitsList] using ih
  | seq _ _ ihe ihv => simp [visits, ihe, ihv]
  | block _ ih => simpa [visits, mem_visitsList] using ih

/-- A well-formed program can be walked to its end. -/
theorem walk (h : e.Formed) : ∃ ns, e.walk = .ok ns := by
  have hall : ∀ l : List (Except Fault Expr), (∀ f, .error f ∉ l) → ∃ ns, l.mapM id = .ok ns := by
    intro l hl
    induction l with
    | nil => exact ⟨[], rfl⟩
    | cons r l ih =>
      cases r with
      | error f => exact absurd List.mem_cons_self (hl f)
      | ok n =>
        obtain ⟨ns, hns⟩ := ih fun f hf => hl f (List.mem_cons_of_mem _ hf)
        refine ⟨n :: ns, ?_⟩
        rw [List.mapM_cons, hns]
        rfl
  exact hall e.visits h.error_not_mem_visits

theorem copyList_eq {es : List Expr} (h : ∀ e ∈ es, e.copy = .ok e) : copyList es = .ok es := by
  induction es with
  | nil => rfl
  | cons e es ih =>
    rw [List.forall_mem_cons] at h
    rw [copyList, h.1, ih h.2]
    rfl

theorem copyBindings_eq {bs : List Binding} (h : ∀ b ∈ bs, ∀ f, b.func? = some f → f.copy = .ok f) :
    copyBindings bs = .ok bs := by
  induction bs with
  | nil => rfl
  | cons b bs ih =>
    rw [List.forall_mem_cons] at h
    have hb : copyBinding b = .ok b := by
      cases b with
      | missing name scheme => rfl
      | fn name scheme params result body ty =>
        have hfunc := h.1 _ rfl
        rw [Expr.copy, bind_eq_ok] at hfunc
        obtain ⟨body', hbody, heq⟩ := hfunc
        cases heq
        rw [copyBinding, hbody]
        rfl
    rw [copyBindings, hb, ih h.2]
    rfl

/-- The copy of a well-formed program is the program. -/
theorem copy (h : e.Formed) : e.copy = .ok e := by
  induction h with
  | int | str | var => rfl
  | func _ ih => rw [Expr.copy, ih]; rfl
  | call _ _ ihf iha => rw [Expr.copy, copyList_eq iha, ihf]; rfl
  | letAlone _ ih => rw [Expr.copy, Expr.copy, ih]; rfl
  | letIn _ _ ihv ihb => rw [Expr.copy, ihb, ihv]; rfl
  | group _ _ _ ihf ihb => rw [Expr.copy, copyBindings_eq ihf, ihb]; rfl
  | array _ ih => rw [Expr.copy, copyList_eq ih]; rfl
  | seq _ _ ihe ihv => rw [Expr.copy, ihe, ihv]; rfl
  | block _ ih => rw [Expr.copy, copyList_eq ih]; rfl

theorem printList_isOk {es : List Expr} (h : ∀ e ∈ es, ∀ callee, ∃ s, e.printAt callee = .ok s) :
    ∃ ss, printList es = .ok ss := by
  induction es with
  | nil => exact ⟨[], rfl⟩
  | cons e es ih =>
    rw [List.forall_mem_cons] at h
    obtain ⟨s, hs⟩ := h.1 false
    obtain ⟨ss, hss⟩ := ih h.2
    rw [printList, hs, hss]
    exact ⟨_, rfl⟩

theorem printBindings_isOk {bs : List Binding} (hfn : ∀ b ∈ bs, b.func?.isSome = true)
    (h : ∀ b ∈ bs, ∀ f, b.func? = some f → ∀ callee, ∃ s, f.printAt callee = .ok s) :
    ∃ ss, printBindings bs = .ok ss := by
  induction bs with
  | nil => exact ⟨[], rfl⟩
  | cons b bs ih =>
    rw [List.forall_mem_cons] at h hfn
    have hb : ∃ s, printBinding b = .ok s := by
      cases b with
      | missing name scheme => cases hfn.1
      | fn name scheme params result body ty =>
        obtain ⟨s, hs⟩ := h.1 _ rfl false
        rw [printAt, bind_eq_ok] at hs
        obtain ⟨t, ht, _⟩ := hs
        rw [printBinding, ht]
        exact ⟨_, rfl⟩
    obtain ⟨s, hs⟩ := hb
    obtain ⟨ss, hss⟩ := ih hfn.2 h.2
    rw [printBindings, hs, hss]
    exact ⟨_, rfl⟩

/-- A well-formed program has a text. -/
theorem printAt (h : e.Formed) (callee : Bool) : ∃ s, e.printAt callee = .ok s := by
  induction h generalizing callee with
  | int | str | var => exact ⟨_, rfl⟩
  | func _ ih =>
    obtain ⟨s, hs⟩ := ih false
    rw [Expr.printAt, hs]
    exact ⟨_, rfl⟩
  | call _ _ ihf iha =>
    obtain ⟨s, hs⟩ := ihf true
    obtain ⟨ss, hss⟩ := printList_isOk iha
    rw [Expr.printAt, hs, hss]
    exact ⟨_, rfl⟩
  | letAlone _ ih =>
    obtain ⟨s, hs⟩ := ih false
    rw [Expr.printAt, hs]
    exact ⟨_, rfl⟩
  | letIn _ hb ihv ihb =>
    obtain ⟨s, hs⟩ := ihv false
    obtain ⟨t, ht⟩ := ihb false
    rw [Expr.printAt, hs, ht, hb.isAbsent]
    exact ⟨_, rfl⟩
  | group hfn _ _ ihf ihb =>
    obtain ⟨ss, hss⟩ := printBindings_isOk hfn ihf
    obtain ⟨s, hs⟩ := ihb false
    rw [Expr.printAt, hss, hs]
    exact ⟨_, rfl⟩
  | array _ ih =>
    obtain ⟨ss, hss⟩ := printList_isOk ih
    rw [Expr.printAt, hss]
    exact ⟨_, rfl⟩
  | seq _ _ ihe ihv =>
    obtain ⟨s, hs⟩ := ihe false
    obtain ⟨t, ht⟩ := ihv false
    rw [Expr.printAt, hs, ht]
    exact ⟨_, rfl⟩
  | block _ ih =>
    obtain ⟨ss, hss⟩ := printList_isOk ih
    rw [Expr.printAt, hss]
    exact ⟨_, rfl⟩

theorem groups (h : e.Formed) : ∃ gs, e.groups = .ok gs := by
  obtain ⟨ns, hns⟩ := h.walk
  rw [Expr.groups, hns]
  exact ⟨_, rfl⟩

end Formed

end Polytype.Expr
