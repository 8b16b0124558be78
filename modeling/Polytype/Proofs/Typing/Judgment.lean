import Mathlib
import Polytype.Proofs.Env
import Polytype.Proofs.Infer.Generalization

/-!
# The type system

`HasType Γ e t` is the declarative typing judgment: the rules of Hindley and Milner for these
expressions, without variables of a store, constraints or an order in which anything is done.

* A variable has an instance of its generic type, which is the given one where type arguments are given.
* A `let` is monomorphic. Without a body it has the type of its value and binds its name only for the
  rest of the block that it is an item of.
* The functions of a group have types `ts` in the environment that binds all of them to these types,
  without parameters; the body is typed with each generalised over the variables that are not in the
  environment.
-/

namespace Polytype

/-- A type is what an annotation says, if there is one. -/
def Fills (annot t : Ty) : Prop := annot = .absent ∨ t = annot

/-- A parameter with a type that is what its annotation says. -/
def Param.Typed (p q : Param) : Prop := q.name = p.name ∧ Fills p.ty q.ty

/-- The environment with parameters bound from left to right. -/
def Env.declareParams (env : Env) (params : List Param) : Env :=
  params.foldl (fun env p => env.declare p.name p.ty) env

/-- The environment of the items of a block after one of a type. -/
def Env.afterItem (env : Env) (e : Expr) (t : Ty) : Env :=
  match e.boundAfter? with
  | some name => env.declare name t
  | none => env

/-- A type generalised in an environment: there is one parameter for each of its variables that the
environment does not mention, in the order of their first occurrences. -/
structure Generalizes (Γ : Env) (t : Ty) (g : Scheme) : Prop where
  length : g.params.length = (firstsNotIn t.vars Γ.vars).length
  nodup : g.params.Nodup
  new : ∀ p ∈ g.params, p ∉ t.names
  body : g.body = t.subst (named (firstsNotIn t.vars Γ.vars) g.params)

/-- The instances of a generalised type are the type with others for the variables that became
parameters. -/
theorem Generalizes.apply {Γ : Env} {t : Ty} {g : Scheme} (h : Generalizes Γ t g) {args : List Ty}
    (ha : args.length = g.params.length) :
    g.apply args = t.subst (assign (firstsNotIn t.vars Γ.vars) args .var) := by
  obtain ⟨params, body⟩ := g
  have hbody := h.body
  simp only at hbody
  subst hbody
  exact Scheme.apply_named h.nodup h.length.symm ha fun p hp hm => h.new p hp (Ty.names_of_consts hm)

mutual

/-- An expression has a type in an environment. -/
inductive HasType : Env → Expr → Ty → Prop
  | int {Γ : Env} {value : Int64} {ty : Ty} : HasType Γ (.int value ty) .int
  | str {Γ : Env} {value : String} {ty : Ty} : HasType Γ (.str value ty) .string
  | var {Γ : Env} {name : String} {typeArgs : Option (List Ty)} {ty : Ty} {g : Scheme}
      {args : List Ty} : Γ.lookup? name = some (some g) → args.length = g.params.length →
      (∀ given, typeArgs = some given → given = args) →
      HasType Γ (.var name typeArgs ty) (g.apply args)
  | func {Γ : Env} {params typed : List Param} {result r : Ty} {body : Expr} {ty : Ty} :
      List.Forall₂ Param.Typed params typed → Fills result r →
      HasType (Γ.declareParams typed) body r →
      HasType Γ (.func params result body ty) (.function (typed.map (·.ty)) r)
  | call {Γ : Env} {callee : Expr} {args : List Expr} {ts : List Ty} {t ty : Ty} :
      HasType Γ callee (.function ts t) → HasEach Γ args ts → HasType Γ (.call callee args ty) t
  | letIn {Γ : Env} {name : String} {annot a t ty : Ty} {value body : Expr} :
      body.isAbsent = false → Fills annot a → HasType Γ value a →
      HasType (Γ.declare name a) body t → HasType Γ (.letIn name annot value body ty) t
  | letAlone {Γ : Env} {name : String} {annot a ty : Ty} {value : Expr} :
      Fills annot a → HasType Γ value a → HasType Γ (.letIn name annot value .absent ty) a
  | group {Γ : Env} {bindings : List Binding} {ts : List Ty} {gs : List Scheme} {body : Expr}
      {t ty : Ty} : (∀ b ∈ bindings, b.scheme = none) →
      HasBindings (Γ.extendGroup bindings (ts.map .mono)) bindings ts →
      List.Forall₂ (Generalizes Γ) ts gs → HasType (Γ.extendGroup bindings gs) body t →
      HasType Γ (.group bindings body ty) t
  | array {Γ : Env} {item a ty : Ty} {items : List Expr} : Fills item a →
      (∀ e ∈ items, HasType Γ e a) → HasType Γ (.array item items ty) (.array a)
  | seq {Γ : Env} {effect value : Expr} {u t ty : Ty} : HasType Γ effect u → HasType Γ value t →
      HasType Γ (.seq effect value ty) t
  | block {Γ : Env} {items : List Expr} {t ty : Ty} : HasItems Γ items t →
      HasType Γ (.block items ty) t

/-- Expressions have a type each. -/
inductive HasEach : Env → List Expr → List Ty → Prop
  | nil {Γ : Env} : HasEach Γ [] []
  | cons {Γ : Env} {e : Expr} {es : List Expr} {t : Ty} {ts : List Ty} : HasType Γ e t →
      HasEach Γ es ts → HasEach Γ (e :: es) (t :: ts)

/-- The items of a block have types, and the last of them the type of the block. -/
inductive HasItems : Env → List Expr → Ty → Prop
  | last {Γ : Env} {e : Expr} {t : Ty} : HasType Γ e t → HasItems Γ [e] t
  | cons {Γ : Env} {e f : Expr} {es : List Expr} {u t : Ty} : HasType Γ e u →
      HasItems (Γ.afterItem e u) (f :: es) t → HasItems Γ (e :: f :: es) t

/-- The functions of a group have a type each. -/
inductive HasBindings : Env → List Binding → List Ty → Prop
  | nil {Γ : Env} : HasBindings Γ [] []
  | cons {Γ : Env} {b : Binding} {f : Expr} {bs : List Binding} {t : Ty} {ts : List Ty} :
      b.func? = some f → HasType Γ f t → HasBindings Γ bs ts → HasBindings Γ (b :: bs) (t :: ts)

end

end Polytype
