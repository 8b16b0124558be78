import Mathlib
import Polytype.Proofs.Store.Termination
import Polytype.Proofs.Store.VarSet

/-!
# Traversals and resolution

Resolution of a type is what the bindings of a store lead to when they are put in for its variables again
and again (`Store.resolveWithin_eq_expand`); in a store without cycles nothing changes after as many rounds as
there are slots (`Store.Acyclic.expand_resolve`). The other traversals follow bindings on their own, and see
what stands in the resolved type (`Store.traversals_agree`).
-/

namespace Polytype

/-- The variables of a list with a property, each once, in the order of their first occurrences. -/
structure FirstOccurrences (p : Int → Bool) (l ids : List Int) : Prop where
  mem_iff : ∀ v, v ∈ ids ↔ v ∈ l ∧ p v = true
  nodup : ids.Nodup
  ordered : ids.Pairwise fun v w => l.idxOf v < l.idxOf w

theorem VarSet.firstOccurrences_addAll (p : Int → Bool) (l : List Int) :
    FirstOccurrences p l (VarSet.empty.addAll (l.filter p)).ids where
  mem_iff v := by simp [Store.mem_addAll, VarSet.empty]
  nodup := (VarSet.empty.addAll _).nodup
  ordered := @VarSet.pairwise_addAll_filter p l [] .empty (by simp [VarSet.empty]) List.Pairwise.nil

namespace Store

variable {s : Store}

/-! ## Putting in bindings -/

/-- A type with its variables replaced by their bindings, once. -/
def expand (s : Store) (t : Ty) : Ty := t.subst fun id => (s.binding? id).getD (.var id)

theorem expand_free {id : Int} (h : s.binding? id = none) : s.expand (.var id) = .var id := by
  rw [expand, Ty.subst_var, h, Option.getD_none]

theorem expand_iterate_subst (n : Nat) (σ : Int → Ty) (t : Ty) :
    s.expand^[n] (t.subst σ) = t.subst fun id => s.expand^[n] (σ id) := by
  induction n generalizing σ with
  | zero => rfl
  | succ n ih =>
    rw [Function.iterate_succ_apply, expand, Ty.subst_subst, ih]
    rfl

theorem resolveWithin_eq_expand (n : Nat) (t : Ty) : s.resolveWithin n t = s.expand^[n] t := by
  induction n generalizing t with
  | zero => rfl
  | succ n ih =>
    rw [Function.iterate_succ_apply, expand, expand_iterate_subst, resolveWithin]
    refine Ty.subst_congr fun id _ => ?_
    cases hb : s.binding? id with
    | none => exact (Function.iterate_fixed (expand_free hb) n).symm
    | some u => exact ih u

/-- Nothing is left to put in after resolution. -/
theorem Acyclic.expand_resolve (hs : s.Acyclic) (t : Ty) : s.expand (s.resolve t) = s.resolve t :=
  Ty.subst_eq_self fun id hid => by rw [binding?_of_mem_resolve hs hid, Option.getD_none]

theorem Acyclic.expand_iterate (hs : s.Acyclic) {n : Nat} (hn : s.size ≤ n) (t : Ty) :
    s.expand^[n] t = s.resolve t := by
  obtain ⟨k, rfl⟩ := Nat.exists_eq_add_of_le' hn
  rw [Function.iterate_add_apply, ← resolveWithin_eq_expand s.size, ← resolve,
    Function.iterate_fixed (hs.expand_resolve t)]

/-! ## Agreement -/

/-- In a store without cycles resolution is the fixpoint of putting in bindings: no variable of it is bound,
and it resolves to itself. A variable occurs in a type if it is in the resolved type, and the free variables
of a type are those of the resolved type that the store owns, each once, from left to right. The recursions
that follow bindings one by one return just that. -/
theorem traversals_agree (hs : s.Acyclic) (t : Ty) :
    ((∀ n, s.size ≤ n → s.expand^[n] t = s.resolve t) ∧ s.expand (s.resolve t) = s.resolve t ∧
      (∀ id ∈ (s.resolve t).vars, s.binding? id = none) ∧ s.resolve (s.resolve t) = s.resolve t ∧
      s.resolveLoop t = some (s.resolve t)) ∧
    (∀ id, (s.occurs id t = true ↔ id ∈ (s.resolve t).vars) ∧
      s.occursLoop id t = some (s.occurs id t)) ∧
    FirstOccurrences s.owns (s.resolve t).vars (s.free t).ids ∧
    s.free (s.resolve t) = s.free t ∧ s.collectLoop .empty t = some (s.free t) := by
  have hfree : ∀ u, s.free u = VarSet.empty.addAll ((s.resolve u).vars.filter s.owns) :=
    collect_eq .empty
  refine ⟨⟨fun n hn => hs.expand_iterate hn t, hs.expand_resolve t,
    fun id hid => binding?_of_mem_resolve hs hid, resolve_resolve hs t, hs.resolveLoop_eq t⟩,
    fun id => ⟨occurs_iff, hs.occursLoop_eq id t⟩, ?_, ?_, hs.collectLoop_eq .empty t⟩
  · rw [hfree]
    exact VarSet.firstOccurrences_addAll _ _
  · rw [hfree, hfree, resolve_resolve hs]

/-- A store with a chain of two bindings to a type with a variable of its own and one of another store, and a
slot that is bound to no type. -/
def shared : Store :=
  ((freshList 4 empty).2.unify (.con "P" [.var 0, .var 1, .var 3])
    (.con "P" [.var 1, .con "Q" [.var 2, .var 9], .absent])).1

theorem acyclic_shared : shared.Acyclic := unify_acyclic (acyclic_empty.freshList 4) _ _

/-- Two ways lead to the variable that both arguments share. -/
theorem traversals_agree_shared :
    shared.slots = #[.var 1, .con "Q" [.var 2, .var 9], .var 2, .absent] ∧
      shared.resolveLoop (.con "R" [.var 9, .var 0, .var 3, .var 1]) =
        some (.con "R" [.var 9, .con "Q" [.var 2, .var 9], .absent, .con "Q" [.var 2, .var 9]]) ∧
      shared.occursLoop 9 (.var 0) = some true ∧ shared.occursLoop 1 (.var 0) = some false ∧
      FirstOccurrences shared.owns [9, 2, 9, 2, 9] [2] := by
  obtain ⟨⟨-, -, -, -, hresolve⟩, -, hfirst, -, -⟩ :=
    traversals_agree acyclic_shared (.con "R" [.var 9, .var 0, .var 3, .var 1])
  obtain ⟨-, hoccurs, -⟩ := traversals_agree acyclic_shared (.var 0)
  exact ⟨by decide +kernel, hresolve, (hoccurs 9).2, (hoccurs 1).2, hfirst⟩

end Store

end Polytype
