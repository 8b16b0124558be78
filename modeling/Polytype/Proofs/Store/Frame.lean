import Mathlib
import Polytype.Proofs.Store.Ownership

/-!
# What unification leaves alone

Unification follows bindings on the way, and later steps see the bindings of earlier ones; still the variables
that it binds are free variables of the two types in the store it started from (`Store.unify_binds`). Every
binding that was there stays, so what resolved to the same type goes on to do so
(`Store.Extends.resolve_congr`). Nothing of this depends on whether the types have a common instance.
-/

namespace Polytype.Store

variable {s s' : Store}

/-! ## Slots -/

/-- A slot that a store with more bindings has changed was unbound. -/
theorem Extends.unbound_of_ne (h : s.Extends s') {k : Nat} (hk : s'.slots[k]? ≠ s.slots[k]?) :
    s.slots[k]? = some (.var k) ∧ ∃ t, s'.binding? k = some t := by
  have hsize : s'.slots.size = s.slots.size := h.size
  have hlt : k < s.slots.size := by
    by_contra hge
    exact hk (by rw [Array.getElem?_eq_none (by omega), Array.getElem?_eq_none (by omega)])
  have hold : s.slots[k]? = some s.slots[k] := Array.getElem?_eq_getElem hlt
  have hself : s.slots[k] = .var k := by
    by_contra hne
    have hkept := h.kept k _ (binding?_of_getElem? hold hne)
    exact hk (by rw [hold, ← getElem?_of_binding? hkept, Int.toNat_natCast])
  rw [hself] at hold
  refine ⟨hold, s'.slots[k], binding?_of_getElem? (Array.getElem?_eq_getElem (hsize ▸ hlt)) fun heq => ?_⟩
  exact hk (by rw [hold, ← heq, Array.getElem?_eq_getElem (hsize ▸ hlt)])

/-! ## Free variables -/

/-- A variable that unification binds is free in one of the types. -/
theorem unify_binds (hs : s.Acyclic) {a b : Ty} {i : Int} (hfree : s.binding? i = none) {t : Ty}
    (hi : (s.unify a b).1.binding? i = some t) : i ∈ (s.free a).ids ∨ i ∈ (s.free b).ids := by
  -- the steps stay within the variables that the types reach in the first store
  have hher : s.Hereditary fun v => ∃ u, (u ∈ a.vars ∨ u ∈ b.vars) ∧ s.Reaches u v := by
    rintro i v hm ⟨u, hu, hr⟩
    exact ⟨u, hu, hr.tail hm⟩
  have hpairs : PairsIn (fun v => ∃ u, (u ∈ a.vars ∨ u ∈ b.vars) ∧ s.Reaches u v) [(a, b)] := by
    intro p hp
    obtain rfl := List.mem_singleton.mp hp
    exact ⟨fun v hv => ⟨v, .inl hv, .refl⟩, fun v hv => ⟨v, .inr hv, .refl⟩⟩
  have howns : s.owns i = true := by
    rw [owns_iff, ← (unify_extends hs a b).size, ← owns_iff]
    exact owns_of_binding? hi
  rcases hher.unifying (unify_unifying hs a b) hs hpairs hi with hold | ⟨-, ⟨u, hu, hr⟩, -⟩
  · rw [hfree] at hold
    cases hold
  · rw [mem_free, mem_free, mem_vars_resolve hs, mem_vars_resolve hs]
    exact hu.imp (fun hu => ⟨⟨hfree, u, hu, hr⟩, howns⟩) fun hu => ⟨⟨hfree, u, hu, hr⟩, howns⟩

/-! ## Resolutions -/

/-- With more bindings a type resolves to what its old resolution resolves to. -/
theorem Extends.resolve_resolve (h : s.Extends s') (hs' : s'.Acyclic) (t : Ty) :
    s'.resolve (s.resolve t) = s'.resolve t := by
  rw [resolve_eq_subst s' (s.resolve t), subst_resolve (h.solvedBy (solvedBy_resolve_var hs')),
    ← resolve_eq_subst]

theorem Extends.resolve_congr (h : s.Extends s') (hs' : s'.Acyclic) {u v : Ty}
    (huv : s.resolve u = s.resolve v) : s'.resolve u = s'.resolve v := by
  rw [← h.resolve_resolve hs' u, huv, h.resolve_resolve hs' v]

/-! ## The frame of unification -/

/-- Whether unification succeeds or fails, it keeps the number of slots, changes only slots of unbound
variables that are free in one of the two types, and keeps resolutions equal that were equal. -/
theorem unify_frame (hs : s.Acyclic) (a b : Ty) :
    (s.unify a b).1.size = s.size ∧
    (∀ k : Nat, (s.unify a b).1.slots[k]? ≠ s.slots[k]? →
      s.slots[k]? = some (.var k) ∧ ((k : Int) ∈ (s.free a).ids ∨ (k : Int) ∈ (s.free b).ids)) ∧
    ∀ u v, s.resolve u = s.resolve v → (s.unify a b).1.resolve u = (s.unify a b).1.resolve v := by
  have hext := unify_extends hs a b
  refine ⟨hext.size, fun k hk => ?_, fun u v huv => hext.resolve_congr (unify_acyclic hs a b) huv⟩
  obtain ⟨hslot, t, ht⟩ := hext.unbound_of_ne hk
  refine ⟨hslot, unify_binds hs ?_ ht⟩
  cases hb : s.binding? k with
  | none => rfl
  | some u =>
    have hu := getElem?_of_binding? hb
    rw [Int.toNat_natCast, hslot] at hu
    cases hu
    exact absurd hb binding?_ne_self

/-- Unification that stops at the results of two functions, after it has bound a variable behind the one
in the parameters. -/
theorem unify_frame_linked :
    (linked.unify (.function [.var 0] .int) (.function [.array .string] .string)).2 =
        some (.mismatch .int .string) ∧
      linked.slots = #[.array (.var 1), .var 1, .var 2] ∧
      (linked.unify (.function [.var 0] .int) (.function [.array .string] .string)).1.slots =
        #[.array (.var 1), .string, .var 2] ∧
      ((1 : Int) ∈ (linked.free (.function [.var 0] .int)).ids ∨
        (1 : Int) ∈ (linked.free (.function [.array .string] .string)).ids) := by
  have hs : linked.Acyclic := unify_acyclic (acyclic_empty.freshList 3) _ _
  obtain ⟨-, hslots, -⟩ := unify_frame hs (.function [.var 0] .int) (.function [.array .string] .string)
  exact ⟨by decide +kernel, by decide +kernel, by decide +kernel, (hslots 1 (by decide +kernel)).2⟩

end Polytype.Store
