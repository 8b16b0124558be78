import Mathlib
import Polytype.Proofs.Store.Acyclic

/-!
# Resolution

In an acyclic store the budget of a traversal is never used up, so that each traversal has the
equations one expects of it: `Store.resolve_bound` and `Store.find_bound` follow a binding, and
`Store.Acyclic.induct` is the induction along which every traversal runs.

`Store.SolvedBy` says that an assignment of types to variables satisfies all bindings of a store. What
a type resolves to is the same type under every solution (`Store.subst_resolve`), and whatever is
assigned to the unbound variables extends to a solution (`Store.solvedBy_resolve`).
-/

namespace Polytype.Store

/-- An assignment of types to variables satisfies the bindings of a store. -/
def SolvedBy (s : Store) (σ : Int → Ty) : Prop :=
  ∀ i t, s.binding? i = some t → σ i = t.subst σ

theorem solvedBy_congr {s s' : Store} (h : ∀ i, s'.binding? i = s.binding? i) {σ : Int → Ty} :
    s'.SolvedBy σ ↔ s.SolvedBy σ := by
  simp only [SolvedBy, h]

/-! ## Induction through bindings -/

/-- What holds of a type if it holds of its variables. -/
theorem induct_vars {motive : Ty → Prop} (absent : motive .absent)
    (con : ∀ name args, (∀ a ∈ args, motive a) → motive (.con name args)) {t : Ty}
    (vars : ∀ j ∈ t.vars, motive (.var j)) : motive t := by
  induction t with
  | absent => exact absent
  | var id => exact vars id (by simp)
  | con name args ih =>
    refine con name args fun a ha => ih a ha fun j hj => vars j ?_
    rw [Ty.vars_con]
    exact List.mem_flatMap.mpr ⟨a, ha, hj⟩

/-- Induction over a type and the bindings of its variables. -/
theorem Acyclic.induct {s : Store} (h : s.Acyclic) {motive : Ty → Prop} (absent : motive .absent)
    (free : ∀ id, s.binding? id = none → motive (.var id))
    (bound : ∀ id t, s.binding? id = some t → motive t → motive (.var id))
    (con : ∀ name args, (∀ a ∈ args, motive a) → motive (.con name args)) (t : Ty) :
    motive t := by
  have hvar : ∀ i, motive (.var i) := by
    intro i
    induction i using h.wellFounded.induction with
    | _ i ih =>
      cases hb : s.binding? i with
      | none => exact free i hb
      | some u => exact bound i u hb (induct_vars absent con fun j hj => ih j ⟨u, hb, hj⟩)
  exact induct_vars absent con fun j _ => hvar j

/-! ## Deep resolution -/

theorem resolveWithin_eq_subst (s : Store) (hops : Nat) (t : Ty) :
    s.resolveWithin hops t = t.subst fun i => s.resolveWithin hops (.var i) := by
  cases hops with
  | zero => exact (Ty.subst_id t).symm
  | succ hops => rfl

theorem resolve_eq_subst (s : Store) (t : Ty) :
    s.resolve t = t.subst fun i => s.resolve (.var i) :=
  resolveWithin_eq_subst s s.size t

@[simp] theorem resolve_absent (s : Store) : s.resolve .absent = .absent := by
  rw [resolve_eq_subst, Ty.subst_absent]

@[simp] theorem resolve_con (s : Store) (name : String) (args : List Ty) :
    s.resolve (.con name args) = .con name (args.map s.resolve) := by
  rw [resolve_eq_subst, Ty.subst_con]
  exact congrArg _ (List.map_congr_left fun a _ => (resolve_eq_subst s a).symm)

theorem resolveWithin_free {s : Store} {id : Int} (h : s.binding? id = none) (hops : Nat) :
    s.resolveWithin hops (.var id) = .var id := by
  cases hops with
  | zero => rfl
  | succ hops => simp only [resolveWithin, Ty.subst_var, h]

theorem resolve_free {s : Store} {id : Int} (h : s.binding? id = none) :
    s.resolve (.var id) = .var id :=
  resolveWithin_free h s.size

theorem resolveWithin_bound {s : Store} {id : Int} {t : Ty} (h : s.binding? id = some t)
    (hops : Nat) : s.resolveWithin (hops + 1) (.var id) = s.resolveWithin hops t := by
  simp only [resolveWithin, Ty.subst_var, h]

/-- Once it covers the ranks of a type's variables, a larger budget changes nothing. -/
theorem Acyclic.resolveWithin_succ {s : Store} (h : s.Acyclic) (hops : Nat) (t : Ty)
    (ht : ∀ j ∈ t.vars, s.rank j ≤ hops) :
    s.resolveWithin (hops + 1) t = s.resolveWithin hops t := by
  induction hops generalizing t with
  | zero =>
    rw [resolveWithin_eq_subst]
    refine Ty.subst_eq_self fun j hj => resolveWithin_free ?_ 1
    by_contra hb
    obtain ⟨u, hu⟩ := Option.ne_none_iff_exists'.mp hb
    have h0 := owns_iff.mp (owns_of_binding? hu)
    have hmem : j.toNat ∈ s.below j := by
      rw [mem_below, Int.toNat_of_nonneg h0.1]
      exact ⟨hb, .refl⟩
    have : 0 < s.rank j := Finset.card_pos.mpr ⟨_, hmem⟩
    have := ht j hj
    omega
  | succ hops ih =>
    rw [resolveWithin_eq_subst, resolveWithin_eq_subst s (hops + 1)]
    refine Ty.subst_congr fun j hj => ?_
    cases hb : s.binding? j with
    | none => rw [resolveWithin_free hb, resolveWithin_free hb]
    | some u =>
      rw [resolveWithin_bound hb, resolveWithin_bound hb]
      refine ih u fun k hk => ?_
      have hlt : s.rank k < s.rank j := h.rank_lt ⟨u, hb, hk⟩
      have := ht j hj
      omega

theorem resolve_bound {s : Store} (h : s.Acyclic) {id : Int} {t : Ty}
    (hb : s.binding? id = some t) : s.resolve (.var id) = s.resolve t := by
  have hsize : ∃ n, s.size = n + 1 := by
    have := owns_iff.mp (owns_of_binding? hb)
    exact ⟨s.size - 1, by omega⟩
  obtain ⟨n, hn⟩ := hsize
  rw [resolve, resolve, hn, resolveWithin_bound hb]
  refine (h.resolveWithin_succ n t fun j hj => ?_).symm
  have hlt : s.rank j < s.rank id := h.rank_lt ⟨t, hb, hj⟩
  have := s.rank_le_size id
  omega

/-- The variables of a resolved type are unbound. -/
theorem binding?_of_mem_resolve {s : Store} (h : s.Acyclic) {t : Ty} {i : Int}
    (hi : i ∈ (s.resolve t).vars) : s.binding? i = none := by
  induction t using h.induct with
  | absent => simp at hi
  | free id hb =>
    rw [resolve_free hb, Ty.vars_var, List.mem_singleton] at hi
    rw [hi, hb]
  | bound id u hb ih =>
    rw [resolve_bound h hb] at hi
    exact ih hi
  | con name args ih =>
    rw [resolve_con, Ty.vars_con, List.flatMap_map] at hi
    obtain ⟨a, ha, hi⟩ := List.mem_flatMap.mp hi
    exact ih a ha hi

theorem resolve_resolve {s : Store} (h : s.Acyclic) (t : Ty) :
    s.resolve (s.resolve t) = s.resolve t := by
  rw [resolve_eq_subst s (s.resolve t)]
  exact Ty.subst_eq_self fun i hi => resolve_free (binding?_of_mem_resolve h hi)

/-- Under a solution of the store a type is what it resolves to. -/
theorem subst_resolve {s : Store} {σ : Int → Ty} (hσ : s.SolvedBy σ) (t : Ty) :
    (s.resolve t).subst σ = t.subst σ := by
  have hvar : ∀ hops i, (s.resolveWithin hops (.var i)).subst σ = σ i := by
    intro hops
    induction hops with
    | zero => exact fun i => rfl
    | succ hops ih =>
      intro i
      cases hb : s.binding? i with
      | none => rw [resolveWithin_free hb, Ty.subst_var]
      | some u =>
        rw [resolveWithin_bound hb, resolveWithin_eq_subst, Ty.subst_subst, hσ i u hb]
        exact Ty.subst_congr fun j _ => ih j
  rw [resolve_eq_subst, Ty.subst_subst]
  exact Ty.subst_congr fun i _ => hvar s.size i

/-- Any assignment of the unbound variables extends to a solution. -/
theorem solvedBy_resolve {s : Store} (h : s.Acyclic) (κ : Int → Ty) :
    s.SolvedBy fun i => (s.resolve (.var i)).subst κ := by
  intro i t hb
  show (s.resolve (.var i)).subst κ = _
  rw [resolve_bound h hb, resolve_eq_subst, Ty.subst_subst]

/-- Resolution itself is a solution. -/
theorem solvedBy_resolve_var {s : Store} (h : s.Acyclic) :
    s.SolvedBy fun i => s.resolve (.var i) := by
  have := solvedBy_resolve h Ty.var
  simpa only [Ty.subst_id] using this

/-! ## Occurrence and free variables -/

theorem occursWithin_eq (s : Store) (id : Int) (hops : Nat) (t : Ty) :
    s.occursWithin id hops t = (s.resolveWithin hops t).vars.contains id := by
  induction hops generalizing t with
  | zero => rfl
  | succ hops ih =>
    rw [occursWithin, resolveWithin, Ty.vars_subst, Bool.eq_iff_iff]
    simp only [List.any_eq_true, List.contains_iff_mem, List.mem_flatMap]
    refine exists_congr fun j => and_congr_right fun _ => ?_
    cases s.binding? j with
    | none =>
      rw [beq_iff_eq, Ty.vars_var, List.mem_singleton]
      exact eq_comm
    | some u => simp [ih]

theorem occurs_iff {s : Store} {id : Int} {t : Ty} :
    s.occurs id t = true ↔ id ∈ (s.resolve t).vars := by
  rw [occurs, occursWithin_eq, List.contains_iff_mem, resolve]

theorem openWithin_eq (s : Store) (hops : Nat) (t : Ty) :
    s.openWithin hops t = (s.resolveWithin hops t).vars.filter s.owns := by
  induction hops generalizing t with
  | zero => rfl
  | succ hops ih =>
    rw [openWithin, resolveWithin, Ty.vars_subst, List.filter_flatMap]
    refine List.flatMap_congr fun j _ => ?_
    cases s.binding? j with
    | none => simp [List.filter_cons]
    | some u => exact ih u

theorem mem_addAll {vs : VarSet} {ids : List Int} {id : Int} :
    id ∈ (vs.addAll ids).ids ↔ id ∈ vs.ids ∨ id ∈ ids := by
  induction ids generalizing vs with
  | nil => simp [VarSet.addAll]
  | cons a as ih =>
    show id ∈ ((vs.add a).addAll as).ids ↔ _
    rw [ih]
    have hadd : id ∈ (vs.add a).ids ↔ id ∈ vs.ids ∨ id = a := by
      rw [VarSet.add]
      split
      · rename_i ha
        exact ⟨.inl, fun h => h.elim (fun hm => hm) fun he => he ▸ ha⟩
      · simp
    rw [hadd, List.mem_cons, or_assoc]

theorem mem_collect {s : Store} {vs : VarSet} {t : Ty} {id : Int} :
    id ∈ (s.collect vs t).ids ↔ id ∈ vs.ids ∨ (id ∈ (s.resolve t).vars ∧ s.owns id = true) := by
  rw [collect, mem_addAll, openWithin_eq, List.mem_filter, resolve]

theorem mem_free {s : Store} {t : Ty} {id : Int} :
    id ∈ (s.free t).ids ↔ id ∈ (s.resolve t).vars ∧ s.owns id = true := by
  rw [free, mem_collect]
  simp [VarSet.empty]

/-- What a type's variables reach occurs in the resolved type. -/
theorem mem_resolve_of_reaches {s : Store} (h : s.Acyclic) {id : Int} (hid : s.binding? id = none)
    {t : Ty} (hr : ∃ j ∈ t.vars, s.Reaches j id) : id ∈ (s.resolve t).vars := by
  induction t using h.induct with
  | absent => simp at hr
  | free i hb =>
    obtain ⟨j, hj, hr⟩ := hr
    rw [Ty.vars_var, List.mem_singleton] at hj
    subst hj
    rw [eq_of_reaches hb hr, resolve_free hb]
    simp
  | bound i u hb ih =>
    obtain ⟨j, hj, hr⟩ := hr
    rw [Ty.vars_var, List.mem_singleton] at hj
    subst hj
    rw [resolve_bound h hb]
    rcases Relation.ReflTransGen.cases_head hr with rfl | ⟨k, ⟨v, hv, hk⟩, hr⟩
    · rw [hid] at hb
      cases hb
    · rw [hb] at hv
      cases hv
      exact ih ⟨k, hk, hr⟩
  | con name args ih =>
    obtain ⟨j, hj, hr⟩ := hr
    rw [Ty.vars_con] at hj
    obtain ⟨a, ha, hj⟩ := List.mem_flatMap.mp hj
    rw [resolve_con, Ty.vars_con, List.flatMap_map]
    exact List.mem_flatMap.mpr ⟨a, ha, ih a ha ⟨j, hj, hr⟩⟩

/-- The variables of a resolved type are the unbound ones that the type's variables reach. -/
theorem mem_vars_resolve {s : Store} (h : s.Acyclic) {t : Ty} {v : Int} :
    v ∈ (s.resolve t).vars ↔ s.binding? v = none ∧ ∃ u ∈ t.vars, s.Reaches u v := by
  constructor
  · intro hv
    refine ⟨binding?_of_mem_resolve h hv, ?_⟩
    induction t using h.induct with
    | absent => simp at hv
    | free i hb =>
      rw [resolve_free hb, Ty.vars_var, List.mem_singleton] at hv
      exact ⟨i, by simp, hv ▸ .refl⟩
    | bound i u hb ih =>
      rw [resolve_bound h hb] at hv
      rcases ih hv with ⟨j, hj, hreach⟩
      exact ⟨i, by simp, .head ⟨u, hb, hj⟩ hreach⟩
    | con name args ih =>
      rw [resolve_con, Ty.vars_con, List.flatMap_map] at hv
      rcases List.mem_flatMap.mp hv with ⟨a, ha, hv⟩
      rcases ih a ha hv with ⟨j, hj, hreach⟩
      refine ⟨j, ?_, hreach⟩
      rw [Ty.vars_con]
      exact List.mem_flatMap.mpr ⟨a, ha, hj⟩
  · rintro ⟨hfree, hreach⟩
    exact mem_resolve_of_reaches h hfree hreach

/-! ## The end of a chain -/

@[simp] theorem find_absent (s : Store) : s.find .absent = .absent := by
  rw [find]
  cases s.size <;> rfl

@[simp] theorem find_con (s : Store) (name : String) (args : List Ty) :
    s.find (.con name args) = .con name args := by
  rw [find]
  cases s.size <;> rfl

theorem findWithin_free {s : Store} {id : Int} (h : s.binding? id = none) (hops : Nat) :
    s.findWithin hops (.var id) = .var id := by
  cases hops with
  | zero => rfl
  | succ hops => rw [findWithin, h]

theorem find_free {s : Store} {id : Int} (h : s.binding? id = none) :
    s.find (.var id) = .var id :=
  findWithin_free h s.size

theorem findWithin_bound {s : Store} {id : Int} {t : Ty} (h : s.binding? id = some t)
    (hops : Nat) : s.findWithin (hops + 1) (.var id) = s.findWithin hops t := by
  rw [findWithin, h]

/-- A larger budget changes nothing once it covers the rank. -/
theorem Acyclic.findWithin_succ {s : Store} (h : s.Acyclic) (hops : Nat) (t : Ty)
    (ht : ∀ j ∈ t.vars, s.rank j ≤ hops) :
    s.findWithin (hops + 1) t = s.findWithin hops t := by
  induction hops generalizing t with
  | zero =>
    cases t with
    | absent => rfl
    | con name args => rfl
    | var id =>
      have hres := h.resolveWithin_succ 0 (.var id) ht
      cases hb : s.binding? id with
      | none => rw [findWithin_free hb, findWithin_free hb]
      | some u =>
        rw [resolveWithin_bound hb] at hres
        have hu : u = .var id := hres
        exact absurd (hu ▸ hb) binding?_ne_self
  | succ hops ih =>
    cases t with
    | absent => rfl
    | con name args => rfl
    | var id =>
      cases hb : s.binding? id with
      | none => rw [findWithin_free hb, findWithin_free hb]
      | some u =>
        rw [findWithin_bound hb, findWithin_bound hb]
        refine ih u fun k hk => ?_
        have hlt : s.rank k < s.rank id := h.rank_lt ⟨u, hb, hk⟩
        have := ht id (by simp)
        omega

theorem find_bound {s : Store} (h : s.Acyclic) {id : Int} {t : Ty}
    (hb : s.binding? id = some t) : s.find (.var id) = s.find t := by
  have hsize : ∃ n, s.size = n + 1 := by
    have := owns_iff.mp (owns_of_binding? hb)
    exact ⟨s.size - 1, by omega⟩
  obtain ⟨n, hn⟩ := hsize
  rw [find, find, hn, findWithin_bound hb]
  refine (h.findWithin_succ n t fun j hj => ?_).symm
  have hlt : s.rank j < s.rank id := h.rank_lt ⟨t, hb, hj⟩
  have := s.rank_le_size id
  omega

/-- A chain ends at a variable only if that is unbound. -/
theorem binding?_of_find {s : Store} (h : s.Acyclic) {t : Ty} {i : Int}
    (hf : s.find t = .var i) : s.binding? i = none := by
  induction t using h.induct with
  | absent => simp at hf
  | free id hb =>
    rw [find_free hb] at hf
    cases hf
    exact hb
  | bound id u hb ih =>
    rw [find_bound h hb] at hf
    exact ih hf
  | con name args _ => simp at hf

/-- Under a solution of the store a type is what stands at the end of its chain. -/
theorem subst_find {s : Store} (h : s.Acyclic) {σ : Int → Ty} (hσ : s.SolvedBy σ) (t : Ty) :
    (s.find t).subst σ = t.subst σ := by
  induction t using h.induct with
  | absent => simp
  | free id hb => rw [find_free hb]
  | bound id u hb ih => rw [find_bound h hb, ih, Ty.subst_var, hσ id u hb]
  | con name args _ => rw [find_con]

/-- A chain that ends away from its start leads through bindings to all that stands at its end. -/
theorem find_reaches {s : Store} (h : s.Acyclic) {t : Ty} {v : Int} (hv : v ∈ (s.find t).vars) :
    ∃ j ∈ t.vars, s.Reaches j v := by
  induction t using h.induct with
  | absent => simp at hv
  | free id hb =>
    rw [find_free hb] at hv
    exact ⟨v, hv, .refl⟩
  | bound id u hb ih =>
    rw [find_bound h hb] at hv
    obtain ⟨j, hj, hr⟩ := ih hv
    exact ⟨id, by simp, .head ⟨u, hb, hj⟩ hr⟩
  | con name args _ =>
    rw [find_con] at hv
    exact ⟨v, hv, .refl⟩

end Polytype.Store
