import Mathlib
import Polytype.Proofs.Ty.Substitution

/-!
# Stores without cycles

All that a traversal reads of a store is its size and `Store.binding?`; the first section says what
each operation does to these two. A store is *acyclic* if no variable can be reached from itself
through bindings.

* `Store.Acyclic.rank_lt` — in an acyclic store a path through bindings can be measured: the *rank*
  of a variable, the number of bound variables it reaches, drops at each step and is at most the
  size of the store. Every traversal's budget is justified by it.
* `Store.Acyclic.bind` — binding an unbound variable keeps a store acyclic if the variable cannot be
  reached from the type.
-/

namespace Polytype.Store

/-! ## Slots and bindings -/

theorem owns_iff {s : Store} {id : Int} : s.owns id = true ↔ 0 ≤ id ∧ id < s.size := by
  simp [owns]

theorem owns_of_binding? {s : Store} {id : Int} {t : Ty} (h : s.binding? id = some t) :
    s.owns id = true := by
  by_contra hid
  rw [Bool.not_eq_true] at hid
  simp [binding?, slot?, hid] at h

theorem binding?_of_not_owns {s : Store} {id : Int} (h : s.owns id = false) :
    s.binding? id = none := by
  simp [binding?, slot?, h]

theorem binding?_ne_self {s : Store} {id : Int} : s.binding? id ≠ some (.var id) := by
  intro h
  rw [binding?] at h
  split at h
  · rename_i j _
    by_cases hj : j = id
    · simp [hj] at h
    · simp [hj] at h
  · rename_i hne
    exact hne id h

@[simp] theorem size_fresh (s : Store) : s.fresh.2.size = s.size + 1 := by
  simp [fresh, size]

/-- A new variable is unbound, and nothing else changes. -/
@[simp] theorem binding?_fresh (s : Store) (id : Int) : s.fresh.2.binding? id = s.binding? id := by
  by_cases hid : s.owns id = true
  · obtain ⟨h0, hlt⟩ := owns_iff.mp hid
    have hnew : s.fresh.2.owns id = true := by
      rw [owns_iff, size_fresh]
      omega
    have hslot : s.fresh.2.slots[id.toNat]? = s.slots[id.toNat]? := by
      have : id.toNat < s.slots.size := by unfold size at hlt; omega
      simp [fresh, Array.getElem?_push, Nat.ne_of_lt this]
    simp only [binding?, slot?, hid, hnew, hslot, if_true]
  · rw [Bool.not_eq_true] at hid
    rw [binding?_of_not_owns hid]
    by_cases hlast : id = s.size
    · subst hlast
      have hnew : s.fresh.2.owns s.size = true := by
        rw [owns_iff, size_fresh]
        omega
      have hslot : s.fresh.2.slots[s.size]? = some (.var s.size) := by
        simp [fresh, size]
      simp [binding?, slot?, hnew, hslot]
    · refine binding?_of_not_owns ?_
      rw [← Bool.not_eq_true, owns_iff] at hid ⊢
      rw [size_fresh]
      omega

theorem size_freshList (n : Nat) (s : Store) : (freshList n s).2.size = s.size + n := by
  induction n generalizing s with
  | zero => rfl
  | succ n ih =>
    rw [freshList]
    show (freshList n s.fresh.2).2.size = s.size + (n + 1)
    rw [ih, size_fresh]
    omega

theorem binding?_freshList (n : Nat) (s : Store) (id : Int) :
    (freshList n s).2.binding? id = s.binding? id := by
  induction n generalizing s with
  | zero => rfl
  | succ n ih =>
    rw [freshList]
    show (freshList n s.fresh.2).2.binding? id = s.binding? id
    rw [ih, binding?_fresh]

/-- The new variables are those after the old ones. -/
theorem freshList_fst (n : Nat) (s : Store) :
    (freshList n s).1 = (List.range n).map fun (k : Nat) => Ty.var ((s.size : Int) + k) := by
  induction n generalizing s with
  | zero => rfl
  | succ n ih =>
    rw [freshList, List.range_succ_eq_map, List.map_cons, List.map_map]
    show Ty.var s.size :: (freshList n s.fresh.2).1 = _
    rw [ih, size_fresh]
    refine congrArg₂ _ (by simp) (List.map_congr_left fun k _ => ?_)
    simp only [Function.comp_apply, Nat.succ_eq_add_one, Nat.cast_add, Nat.cast_one]
    congr 1
    omega

@[simp] theorem size_bind (s : Store) (id : Int) (t : Ty) : (s.bind id t).size = s.size := by
  unfold bind size
  split <;> simp

@[simp] theorem owns_bind (s : Store) (id : Int) (t : Ty) (j : Int) :
    (s.bind id t).owns j = s.owns j := by
  simp [owns]

theorem binding?_bind_of_ne {s : Store} {id j : Int} (t : Ty) (hne : j ≠ id) :
    (s.bind id t).binding? j = s.binding? j := by
  by_cases hid : s.owns id = true
  · by_cases hj : s.owns j = true
    · obtain ⟨h0, _⟩ := owns_iff.mp hid
      obtain ⟨h1, _⟩ := owns_iff.mp hj
      have hslot : (s.bind id t).slots[j.toNat]? = s.slots[j.toNat]? := by
        have : id.toNat ≠ j.toNat := by omega
        simp [bind, hid, this]
      simp only [binding?, slot?, owns_bind, hj, hslot, if_true]
    · rw [Bool.not_eq_true] at hj
      rw [binding?_of_not_owns hj, binding?_of_not_owns (by rw [owns_bind, hj])]
  · rw [Bool.not_eq_true] at hid
    simp [bind, hid]

theorem binding?_bind_self {s : Store} {id : Int} {t : Ty} (hid : s.owns id = true)
    (hne : t ≠ .var id) : (s.bind id t).binding? id = some t := by
  obtain ⟨h0, hlt⟩ := owns_iff.mp hid
  have hslot : (s.bind id t).slots[id.toNat]? = some t := by
    have : id.toNat < s.slots.size := by unfold size at hlt; omega
    simp [bind, hid, this]
  rw [binding?, slot?, owns_bind, hid, if_pos rfl, hslot]
  split
  · rename_i j heq
    have hj : t = .var j := Option.some.inj heq
    have : j ≠ id := fun he => hne (he ▸ hj)
    rw [if_neg this, hj]
  · rfl

/-! ## Paths through bindings -/

/-- The binding of one variable mentions another. -/
def Mentions (s : Store) (i j : Int) : Prop := ∃ t, s.binding? i = some t ∧ j ∈ t.vars

/-- Bindings lead from one variable to another, or the two are the same. -/
abbrev Reaches (s : Store) : Int → Int → Prop := Relation.ReflTransGen s.Mentions

/-- An unbound variable reaches only itself. -/
theorem eq_of_reaches {s : Store} {i j : Int} (hb : s.binding? i = none) (h : s.Reaches i j) :
    j = i := by
  rcases Relation.ReflTransGen.cases_head h with rfl | ⟨k, ⟨t, ht, _⟩, _⟩
  · rfl
  · rw [hb] at ht
    cases ht

/-- No variable is reached from itself. -/
def Acyclic (s : Store) : Prop := ∀ i, ¬ Relation.TransGen s.Mentions i i

/-- The bound variables that a variable reaches, itself included. -/
noncomputable def below (s : Store) (i : Int) : Finset Nat := by
  classical
  exact (Finset.range s.size).filter fun k => s.binding? k ≠ none ∧ s.Reaches i k

/-- How many bound variables a variable reaches, itself included. -/
noncomputable def rank (s : Store) (i : Int) : Nat := (s.below i).card

theorem rank_le_size (s : Store) (i : Int) : s.rank i ≤ s.size := by
  classical
  have h := Finset.card_filter_le (Finset.range s.size)
    fun k : Nat => s.binding? k ≠ none ∧ s.Reaches i k
  rwa [Finset.card_range] at h

theorem mem_below {s : Store} {i : Int} {k : Nat} :
    k ∈ s.below i ↔ s.binding? k ≠ none ∧ s.Reaches i k := by
  classical
  rw [below, Finset.mem_filter, Finset.mem_range]
  constructor
  · exact fun h => h.2
  · intro h
    obtain ⟨t, ht⟩ := Option.ne_none_iff_exists'.mp h.1
    have := owns_iff.mp (owns_of_binding? ht)
    exact ⟨by omega, h⟩

theorem Mentions.owns {s : Store} {i j : Int} (h : s.Mentions i j) : s.owns i = true := by
  obtain ⟨t, ht, _⟩ := h
  exact owns_of_binding? ht

/-- The rank drops along each binding. -/
theorem Acyclic.rank_lt {s : Store} (h : s.Acyclic) {i j : Int} (hij : s.Mentions i j) :
    s.rank j < s.rank i := by
  obtain ⟨h0, _⟩ := owns_iff.mp hij.owns
  have hi : ((i.toNat : Nat) : Int) = i := Int.toNat_of_nonneg h0
  refine Finset.card_lt_card ⟨?_, ?_⟩
  · intro k hk
    rw [mem_below] at hk ⊢
    exact ⟨hk.1, .head hij hk.2⟩
  · -- `i` itself is below `i`; below `j` it would close a cycle
    intro hsub
    obtain ⟨t, ht, _⟩ := hij
    have hself : i.toNat ∈ s.below i := by
      rw [mem_below, hi, ht]
      exact ⟨by simp, .refl⟩
    have hback := (mem_below.mp (hsub hself)).2
    rw [hi] at hback
    exact h i (Relation.TransGen.head' ⟨t, ht, ‹_›⟩ hback)

theorem Acyclic.wellFounded {s : Store} (h : s.Acyclic) :
    WellFounded fun j i => s.Mentions i j :=
  Subrelation.wf (fun hij => h.rank_lt hij) (measure s.rank).wf

theorem acyclic_of_wellFounded {s : Store} (h : WellFounded fun j i => s.Mentions i j) :
    s.Acyclic := by
  intro i hi
  have hswap : Relation.TransGen (fun j i => s.Mentions i j) i i := Relation.transGen_swap.mpr hi
  exact (h.transGen).irrefl.irrefl i hswap

theorem acyclic_congr {s s' : Store} (h : ∀ i, s'.binding? i = s.binding? i) (hs : s.Acyclic) :
    s'.Acyclic := by
  have hm : s'.Mentions = s.Mentions := by
    funext i j
    simp only [Mentions, h]
  intro i
  rw [hm]
  exact hs i

@[simp] theorem binding?_empty (id : Int) : empty.binding? id = none := by
  simp [binding?, slot?, owns, size, empty]

theorem acyclic_empty : empty.Acyclic := by
  intro i hi
  obtain ⟨j, ⟨t, ht, _⟩, _⟩ := Relation.TransGen.head'_iff.mp hi
  simp at ht

theorem Acyclic.fresh {s : Store} (h : s.Acyclic) : s.fresh.2.Acyclic :=
  acyclic_congr (binding?_fresh s) h

theorem Acyclic.freshList {s : Store} (h : s.Acyclic) (n : Nat) : (freshList n s).2.Acyclic :=
  acyclic_congr (binding?_freshList n s) h

/-- Binding an unbound variable to a type that does not reach it closes no cycle. -/
theorem Acyclic.bind {s : Store} (h : s.Acyclic) {id : Int} {t : Ty}
    (hid : s.owns id = true) (hfree : s.binding? id = none)
    (hocc : ∀ j ∈ t.vars, ¬ s.Reaches j id) : (s.bind id t).Acyclic := by
  apply acyclic_of_wellFounded
  have hne : t ≠ .var id := by
    rintro rfl
    exact hocc id (by simp) .refl
  have hmentions : ∀ {i j}, (s.bind id t).Mentions i j →
      (i = id ∧ j ∈ t.vars) ∨ (i ≠ id ∧ s.Mentions i j) := by
    rintro i j ⟨u, hu, hj⟩
    by_cases hi : i = id
    · subst hi
      rw [binding?_bind_self hid hne] at hu
      exact .inl ⟨rfl, Option.some.inj hu ▸ hj⟩
    · rw [binding?_bind_of_ne t hi] at hu
      exact .inr ⟨hi, u, hu, hj⟩
  -- a variable that does not reach `id` keeps its bindings, then `id` itself, then all others
  have hfar : ∀ i, ¬ s.Reaches i id → Acc (fun j i => (s.bind id t).Mentions i j) i := by
    intro i
    induction i using h.wellFounded.induction with
    | _ i ih =>
      intro hi
      refine ⟨i, fun j hj => ?_⟩
      rcases hmentions hj with ⟨rfl, _⟩ | ⟨_, hm⟩
      · exact absurd .refl hi
      · exact ih j hm fun hr => hi (.head hm hr)
  have hself : Acc (fun j i => (s.bind id t).Mentions i j) id := by
    refine ⟨id, fun j hj => ?_⟩
    rcases hmentions hj with ⟨_, hm⟩ | ⟨hn, _⟩
    · exact hfar j (hocc j hm)
    · exact absurd rfl hn
  refine ⟨fun i => ?_⟩
  induction i using h.wellFounded.induction with
  | _ i ih =>
    by_cases hi : i = id
    · rw [hi]
      exact hself
    · refine ⟨i, fun j hj => ?_⟩
      rcases hmentions hj with ⟨he, _⟩ | ⟨_, hm⟩
      · exact absurd he hi
      · exact ih j hm

end Polytype.Store
