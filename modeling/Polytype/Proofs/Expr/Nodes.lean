import Mathlib
import Polytype.Expr.Walk
import Polytype.Proofs.Ty.Vocabulary

/-!
# Nodes of expressions

Induction over expressions, in which the functions of a group count as parts of the group
(`Expr.induct`), and properties of all nodes of a tree (`Expr.Every`). What a program is given besides
its structure are the annotations, type arguments and generic types at its nodes; `Expr.Over` says that
these are in a vocabulary.
-/

namespace Polytype

namespace Expr

theorem isAbsent_iff {e : Expr} : e.isAbsent = true ↔ e = .absent := by
  cases e <;> simp [isAbsent]

/-! ## Induction -/

/-- Induction over expressions. -/
@[elab_as_elim, induction_eliminator]
theorem induct {motive : Expr → Prop} (absent : motive .absent)
    (int : ∀ value ty, motive (.int value ty)) (str : ∀ value ty, motive (.str value ty))
    (var : ∀ name typeArgs ty, motive (.var name typeArgs ty))
    (func : ∀ params result body ty, motive body → motive (.func params result body ty))
    (call : ∀ callee args ty, motive callee → (∀ a ∈ args, motive a) →
      motive (.call callee args ty))
    (letIn : ∀ name annot value body ty, motive value → motive body →
      motive (.letIn name annot value body ty))
    (group : ∀ bindings body ty, (∀ b ∈ bindings, ∀ f, b.func? = some f → motive f) →
      motive body → motive (.group bindings body ty))
    (array : ∀ item items ty, (∀ e ∈ items, motive e) → motive (.array item items ty))
    (seq : ∀ effect value ty, motive effect → motive value → motive (.seq effect value ty))
    (block : ∀ items ty, (∀ e ∈ items, motive e) → motive (.block items ty))
    (other : ∀ kind, motive (.other kind)) (e : Expr) : motive e :=
  @Expr.rec motive (fun b => ∀ f, b.func? = some f → motive f) (fun es => ∀ e ∈ es, motive e)
    (fun bs => ∀ b ∈ bs, ∀ f, b.func? = some f → motive f)
    absent int str var func call letIn group array seq block other
    (fun _ _ params result body ty h f hf => by
      cases hf
      exact func params result body ty h)
    (fun _ _ f hf => by cases hf)
    (fun _ he => by cases he)
    (fun _ _ he hes => List.forall_mem_cons.mpr ⟨he, hes⟩)
    (fun _ hb => by cases hb)
    (fun _ _ hb hbs => List.forall_mem_cons.mpr ⟨hb, hbs⟩) e

/-! ## Nodes -/

/-- All nodes of a tree have a property; the functions of a group are nodes too. -/
def Every (P : Expr → Prop) (e : Expr) : Prop := ∀ n, .ok n ∈ e.visits → P n

example : (seq (int 1 .absent) (int 2 .absent) .absent).visits =
    [.ok (seq (int 1 .absent) (int 2 .absent) .absent), .ok (int 1 .absent), .ok (int 2 .absent)] := by
  rw [visits, visits, visits]
  rfl

theorem mem_visitsList {r : Except Fault Expr} {es : List Expr} :
    r ∈ visitsList es ↔ ∃ e ∈ es, r ∈ e.visits := by
  induction es with
  | nil => simp [visitsList]
  | cons e es ih => simp [visitsList, ih]

theorem mem_visitsBindings {n : Expr} {bs : List Binding} :
    .ok n ∈ visitsBindings bs ↔ ∃ b ∈ bs, ∃ f, b.func? = some f ∧ .ok n ∈ f.visits := by
  induction bs with
  | nil => simp [visitsBindings]
  | cons b bs ih =>
    rw [visitsBindings, List.mem_append, ih]
    cases b with
    | fn name scheme params result body ty => simp [visitsBinding, Binding.func?, visits]
    | missing name scheme => simp [visitsBinding, Binding.func?]

section

variable {P : Expr → Prop}

@[simp] theorem every_int {value : Int64} {ty : Ty} : (int value ty).Every P ↔ P (.int value ty) := by
  simp [Every, visits]

@[simp] theorem every_str {value : String} {ty : Ty} : (str value ty).Every P ↔ P (.str value ty) := by
  simp [Every, visits]

@[simp] theorem every_absent : absent.Every P := by
  simp [Every, visits]

@[simp] theorem every_var {name : String} {typeArgs : Option (List Ty)} {ty : Ty} :
    (var name typeArgs ty).Every P ↔ P (.var name typeArgs ty) := by
  simp [Every, visits]

@[simp] theorem every_func {params : List Param} {result : Ty} {body : Expr} {ty : Ty} :
    (func params result body ty).Every P ↔ P (.func params result body ty) ∧ body.Every P := by
  simp [Every, visits]

@[simp] theorem every_call {callee : Expr} {args : List Expr} {ty : Ty} :
    (call callee args ty).Every P ↔
      P (.call callee args ty) ∧ callee.Every P ∧ ∀ a ∈ args, a.Every P := by
  simp only [Every, visits, List.mem_cons, List.mem_append, mem_visitsList, Except.ok.injEq]
  grind

@[simp] theorem every_letIn {name : String} {annot : Ty} {value body : Expr} {ty : Ty} :
    (letIn name annot value body ty).Every P ↔
      P (.letIn name annot value body ty) ∧ value.Every P ∧ body.Every P := by
  simp only [Every, visits, List.mem_cons, List.mem_append, Except.ok.injEq]
  grind

@[simp] theorem every_group {bindings : List Binding} {body : Expr} {ty : Ty} :
    (group bindings body ty).Every P ↔ P (.group bindings body ty) ∧
      (∀ b ∈ bindings, ∀ f, b.func? = some f → f.Every P) ∧ body.Every P := by
  simp only [Every, visits, List.mem_cons, List.mem_append, mem_visitsBindings, Except.ok.injEq]
  grind

@[simp] theorem every_array {item : Ty} {items : List Expr} {ty : Ty} :
    (array item items ty).Every P ↔ P (.array item items ty) ∧ ∀ e ∈ items, e.Every P := by
  simp only [Every, visits, List.mem_cons, mem_visitsList, Except.ok.injEq]
  grind

@[simp] theorem every_seq {effect value : Expr} {ty : Ty} :
    (seq effect value ty).Every P ↔
      P (.seq effect value ty) ∧ effect.Every P ∧ value.Every P := by
  simp only [Every, visits, List.mem_cons, List.mem_append, Except.ok.injEq]
  grind

@[simp] theorem every_block {items : List Expr} {ty : Ty} :
    (block items ty).Every P ↔ P (.block items ty) ∧ ∀ e ∈ items, e.Every P := by
  simp only [Every, visits, List.mem_cons, mem_visitsList, Except.ok.injEq]
  grind

theorem Every.imp {Q : Expr → Prop} {e : Expr} (h : e.Every P) (hi : ∀ n, P n → Q n) : e.Every Q :=
  fun n hn => hi n (h n hn)

end

/-! ## What is given at a node -/

/-- The annotations at a node, `Ty.absent` where one is left out. -/
def annotations : Expr → List Ty
  | func params result _ _ => params.map (·.ty) ++ [result]
  | letIn _ annot _ _ _ => [annot]
  | array item _ _ => [item]
  | _ => []

/-- The types that are given for the generic parameters of a variable. -/
def typeArguments : Expr → List Ty
  | var _ typeArgs _ => typeArgs.getD []
  | _ => []

/-- The generic types that are given for the functions of a group. -/
def generics : Expr → List Scheme
  | group bindings _ _ => bindings.filterMap (·.scheme)
  | _ => []

/-- What is given at a node has no variables and is in a vocabulary. -/
structure NodeOver (V : Vocabulary) (n : Expr) : Prop where
  annotations : ∀ t ∈ n.annotations, t ≠ .absent → t.Over V 0
  typeArguments : ∀ t ∈ n.typeArguments, t.Over V 0
  generics : ∀ g ∈ n.generics, g.body.Over V 0

section

variable {V : Vocabulary} {ps : List Param} {r a ty : Ty} {value body : Expr}

theorem NodeOver.params (h : (func ps r body ty).NodeOver V) :
    ∀ p ∈ ps, p.ty ≠ .absent → p.ty.Over V 0 := by
  intro p hp
  exact h.annotations p.ty (by simpa [Expr.annotations] using .inl ⟨p, hp, rfl⟩)

theorem NodeOver.result (h : (func ps r body ty).NodeOver V) : r ≠ .absent → r.Over V 0 :=
  h.annotations r (by simp [Expr.annotations])

theorem NodeOver.annot {name : String} (h : (letIn name a value body ty).NodeOver V) :
    a ≠ .absent → a.Over V 0 :=
  h.annotations a (by simp [Expr.annotations])

theorem NodeOver.item {items : List Expr} (h : (array a items ty).NodeOver V) :
    a ≠ .absent → a.Over V 0 :=
  h.annotations a (by simp [Expr.annotations])

end

/-- What a program is given has no variables and is in a vocabulary. -/
def Over (V : Vocabulary) (e : Expr) : Prop := e.Every (NodeOver V)

/-- No function of a group is given a generic type, and what else a program is given has no variables
and is in a vocabulary. -/
def Plain (V : Vocabulary) (e : Expr) : Prop := e.Every fun n => n.NodeOver V ∧ n.generics = []

theorem Plain.over {V : Vocabulary} {e : Expr} (h : e.Plain V) : e.Over V := h.imp fun _ hn => hn.1

theorem scheme_eq_none {bindings : List Binding} {body : Expr} {ty : Ty}
    (h : (group bindings body ty).generics = []) : ∀ b ∈ bindings, b.scheme = none := by
  intro b hb
  by_contra hne
  obtain ⟨g, hg⟩ := Option.ne_none_iff_exists'.mp hne
  have hm : g ∈ bindings.filterMap (·.scheme) := List.mem_filterMap.mpr ⟨b, hb, hg⟩
  rw [show bindings.filterMap (·.scheme) = [] from h] at hm
  cases hm

end Expr

end Polytype
