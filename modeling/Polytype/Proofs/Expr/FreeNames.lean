import Mathlib
import Polytype.Expr.Names
import Polytype.Proofs.Expr.Nodes

/-!
# Free names

`Expr.free` lists the free occurrences of names by recursion alone: what binds a name removes it on the way
up. The traversal with counters finds the same names (`mem_freeNames`): it leaves the counters as they were,
and adds the free names whose counter is zero where it starts (`NameScope.Collects`).

Which names are free in each form of expression is said by membership, for order and repetitions of the
occurrences do not matter for any of the results.
-/

namespace Polytype

namespace Expr

mutual

/-- The free occurrences of names, from left to right. -/
def free : Expr → List String
  | var name _ _ => [name]
  | func params _ body _ => (free body).filter fun x => !params.any (·.name == x)
  | call fn args _ => free fn ++ freeList args
  | letIn name _ value body _ => free value ++ (free body).filter (· != name)
  | group bindings body _ =>
    (freeBindings bindings ++ free body).filter fun x => !bindings.any (·.name == x)
  | array _ items _ => freeList items
  | seq effect value _ => free effect ++ free value
  | block items _ => freeItems items
  | absent | int .. | str .. | other _ => []

/-- The free occurrences in expressions beside each other. -/
def freeList : List Expr → List String
  | [] => []
  | e :: es => free e ++ freeList es

/-- The free occurrences in the items of a block. -/
def freeItems : List Expr → List String
  | [] => []
  | e :: es =>
    free e ++ match e.boundAfter? with
      | some name => (freeItems es).filter (· != name)
      | none => freeItems es

/-- The free occurrences in a function of a group, which its own group does not bind here. -/
def freeBinding : Binding → List String
  | .fn _ _ params _ body _ => (free body).filter fun x => !params.any (·.name == x)
  | .missing .. => []

/-- The free occurrences in the functions of a group. -/
def freeBindings : List Binding → List String
  | [] => []
  | b :: bs => freeBinding b ++ freeBindings bs

end

theorem mem_freeList {es : List Expr} {x : String} : x ∈ freeList es ↔ ∃ e ∈ es, x ∈ e.free := by
  induction es with
  | nil => simp [freeList]
  | cons e es ih => simp [freeList, ih]

theorem mem_free_func {params : List Param} {result : Ty} {body : Expr} {ty : Ty} {x : String} :
    x ∈ (func params result body ty).free ↔ x ∈ body.free ∧ x ∉ params.map (·.name) := by
  rw [free, List.mem_filter]
  simp

theorem mem_freeBinding {b : Binding} {x : String} :
    x ∈ freeBinding b ↔ ∃ f, b.func? = some f ∧ x ∈ f.free := by
  cases b with
  | missing name scheme => simp [freeBinding, Binding.func?]
  | fn name scheme params result body ty => simp [freeBinding, Binding.func?, free]

theorem mem_freeBindings {bs : List Binding} {x : String} :
    x ∈ freeBindings bs ↔ ∃ b ∈ bs, ∃ f, b.func? = some f ∧ x ∈ f.free := by
  induction bs with
  | nil => simp [freeBindings]
  | cons b bs ih => simp [freeBindings, ih, mem_freeBinding]

theorem mem_free_call {callee : Expr} {args : List Expr} {ty : Ty} {x : String} :
    x ∈ (call callee args ty).free ↔ x ∈ callee.free ∨ ∃ a ∈ args, x ∈ a.free := by
  rw [free, List.mem_append, mem_freeList]

theorem mem_free_letIn {name : String} {annot : Ty} {value body : Expr} {ty : Ty} {x : String} :
    x ∈ (letIn name annot value body ty).free ↔ x ∈ value.free ∨ x ∈ body.free ∧ x ≠ name := by
  rw [free, List.mem_append, List.mem_filter]
  simp

theorem mem_free_group {bs : List Binding} {body : Expr} {ty : Ty} {x : String} :
    x ∈ (group bs body ty).free ↔
      ((∃ b ∈ bs, ∃ f, b.func? = some f ∧ x ∈ f.free) ∨ x ∈ body.free) ∧ x ∉ bs.map (·.name) := by
  rw [free, List.mem_filter, List.mem_append, mem_freeBindings]
  simp

theorem mem_free_array {item : Ty} {items : List Expr} {ty : Ty} {x : String} :
    x ∈ (array item items ty).free ↔ ∃ e ∈ items, x ∈ e.free := by
  rw [free, mem_freeList]

theorem mem_free_seq {effect value : Expr} {ty : Ty} {x : String} :
    x ∈ (seq effect value ty).free ↔ x ∈ effect.free ∨ x ∈ value.free := by
  rw [free, List.mem_append]

/-- What an item binds is not free in the items after it. -/
theorem mem_freeItems_cons {e : Expr} {es : List Expr} {x : String} :
    x ∈ freeItems (e :: es) ↔ x ∈ e.free ∨ x ∈ freeItems es ∧ e.boundAfter? ≠ some x := by
  rw [freeItems, List.mem_append]
  cases e.boundAfter? with
  | none => simp
  | some name => simp [@eq_comm _ name x]

theorem freeItems_nil : freeItems [] = [] := by
  rw [freeItems]

end Expr

namespace NameScope

/-! ## Counters -/

/-- No counter is below zero. -/
def Counts (s : NameScope) : Prop := ∀ x, 0 ≤ s.bound x

theorem counts_empty : empty.Counts := fun _ => le_rfl

theorem bound_bind (s : NameScope) (name x : String) :
    (s.bind name).bound x = s.bound x + if x = name then 1 else 0 := by
  rw [bind]
  by_cases hx : x = name <;> simp [hx]

theorem bound_unbind (s : NameScope) (name x : String) :
    (s.unbind name).bound x = s.bound x - if x = name then 1 else 0 := by
  rw [unbind]
  by_cases hx : x = name <;> simp [hx]

theorem Counts.bind {s : NameScope} (h : s.Counts) (name : String) : (s.bind name).Counts := by
  intro x
  have hx := h x
  rw [bound_bind]
  split <;> omega

variable {α : Type} {f : α → String}

theorem bound_foldl_bind (f : α → String) (l : List α) (s : NameScope) (x : String) :
    (l.foldl (fun s a => s.bind (f a)) s).bound x = s.bound x + (l.map f).count x := by
  induction l generalizing s with
  | nil => simp
  | cons a l ih =>
    rw [List.foldl_cons, ih, bound_bind, List.map_cons, List.count_cons, Nat.cast_add]
    simp only [beq_iff_eq, @eq_comm _ (f a) x]
    by_cases hx : x = f a <;> simp [hx]
    omega

theorem bound_foldl_unbind (f : α → String) (l : List α) (s : NameScope) (x : String) :
    (l.foldl (fun s a => s.unbind (f a)) s).bound x = s.bound x - (l.map f).count x := by
  induction l generalizing s with
  | nil => simp
  | cons a l ih =>
    rw [List.foldl_cons, ih, bound_unbind, List.map_cons, List.count_cons, Nat.cast_add]
    simp only [beq_iff_eq, @eq_comm _ (f a) x]
    by_cases hx : x = f a <;> simp [hx]
    omega

theorem free_foldl_bind (f : α → String) (l : List α) (s : NameScope) :
    (l.foldl (fun s a => s.bind (f a)) s).free = s.free := by
  induction l generalizing s with
  | nil => rfl
  | cons a l ih => rw [List.foldl_cons, ih, bind]

theorem free_foldl_unbind (f : α → String) (l : List α) (s : NameScope) :
    (l.foldl (fun s a => s.unbind (f a)) s).free = s.free := by
  induction l generalizing s with
  | nil => rfl
  | cons a l ih => rw [List.foldl_cons, ih, unbind]

/-! ## The traversal -/

/-- A traversal leaves the counters alone and adds the names that are free in `names` and not bound. -/
structure Collects (names : List String) (s s' : NameScope) : Prop where
  bound : s'.bound = s.bound
  free : ∀ x, x ∈ s'.free ↔ x ∈ s.free ∨ s.bound x = 0 ∧ x ∈ names

theorem Collects.counts {names : List String} {s s' : NameScope} (h : Collects names s s')
    (hs : s.Counts) : s'.Counts := by
  rw [Counts, h.bound]
  exact hs

theorem Collects.none (s : NameScope) : Collects [] s s := ⟨rfl, by simp⟩

theorem Collects.meet (s : NameScope) (name : String) : Collects [name] s (s.meet name) := by
  rw [NameScope.meet]
  split
  case isTrue h =>
    refine ⟨rfl, fun x => ?_⟩
    rw [List.mem_cons, List.mem_singleton]
    constructor
    · rintro (rfl | hx)
      · exact .inr ⟨h.1, rfl⟩
      · exact .inl hx
    · rintro (hx | ⟨_, rfl⟩)
      · exact .inr hx
      · exact .inl rfl
  case isFalse h =>
    refine ⟨rfl, fun x => ⟨.inl, ?_⟩⟩
    rintro (hx | ⟨h0, hx⟩)
    · exact hx
    · rw [List.mem_singleton] at hx
      subst hx
      by_contra hx
      exact h ⟨h0, by simpa using hx⟩

theorem Collects.append {l l' : List String} {s s' s'' : NameScope} (h : Collects l s s')
    (h' : Collects l' s' s'') : Collects (l ++ l') s s'' := by
  refine ⟨h'.bound.trans h.bound, fun x => ?_⟩
  rw [h'.free, h.free, h.bound, List.mem_append]
  tauto

/-- Names are bound for a part of the traversal. -/
theorem Collects.binding {names : List String} {s s' : NameScope} (hs : s.Counts) (f : α → String)
    (l : List α) (h : Collects names (l.foldl (fun s a => s.bind (f a)) s) s') :
    Collects (names.filter fun x => !l.any fun a => f a == x) s
      (l.foldl (fun s a => s.unbind (f a)) s') := by
  refine ⟨?_, fun x => ?_⟩
  · funext x
    rw [bound_foldl_unbind, h.bound, bound_foldl_bind]
    omega
  · have hmem : (!l.any fun a => f a == x) = true ↔ (l.map f).count x = 0 := by
      rw [List.count_eq_zero, List.mem_map]
      simp
    have hx := hs x
    rw [free_foldl_unbind, h.free, free_foldl_bind, bound_foldl_bind, List.mem_filter, hmem]
    constructor
    · rintro (hx | ⟨h0, hx⟩)
      · exact .inl hx
      · exact .inr ⟨by omega, hx, by omega⟩
    · rintro (hx | ⟨h0, hx, hc⟩)
      · exact .inl hx
      · exact .inr ⟨by omega, hx⟩

theorem counts_foldl_bind {s : NameScope} (hs : s.Counts) (f : α → String) (l : List α) :
    (l.foldl (fun s a => s.bind (f a)) s).Counts := by
  intro x
  have hx := hs x
  rw [bound_foldl_bind]
  omega

/-- The traversal of an expression collects its free names. -/
def Traverses (e : Expr) : Prop := ∀ s : NameScope, s.Counts → Collects e.free s (s.expr e)

theorem exprs_collects {es : List Expr} (hes : ∀ e ∈ es, Traverses e) {s : NameScope} (hs : s.Counts) :
    Collects (Expr.freeList es) s (s.exprs es) := by
  induction es generalizing s with
  | nil =>
    rw [Expr.freeList, exprs]
    exact .none s
  | cons e es ih =>
    rw [List.forall_mem_cons] at hes
    have he := hes.1 s hs
    rw [Expr.freeList, exprs]
    exact he.append (ih hes.2 (he.counts hs))

theorem function_collects {b : Binding} (hb : ∀ e, b.func? = some e → Traverses e) {s : NameScope}
    (hs : s.Counts) : Collects (Expr.freeBinding b) s (s.function b) := by
  cases b with
  | missing name scheme =>
    rw [Expr.freeBinding, function]
    exact .none s
  | fn name scheme params result body ty =>
    have hfunc := hb _ rfl s hs
    rw [Expr.free, expr] at hfunc
    rw [Expr.freeBinding, function]
    exact hfunc

theorem functions_collects {bs : List Binding} (hbs : ∀ b ∈ bs, ∀ e, b.func? = some e → Traverses e)
    {s : NameScope} (hs : s.Counts) : Collects (Expr.freeBindings bs) s (s.functions bs) := by
  induction bs generalizing s with
  | nil =>
    rw [Expr.freeBindings, functions]
    exact .none s
  | cons b bs ih =>
    rw [List.forall_mem_cons] at hbs
    have hb := function_collects hbs.1 hs
    rw [Expr.freeBindings, functions]
    exact hb.append (ih hbs.2 (hb.counts hs))

/-- What the items before have bound is unbound at the end. -/
theorem items_collects {es : List Expr} (hes : ∀ e ∈ es, Traverses e) {s : NameScope} (hs : s.Counts)
    (before : List String) :
    (∀ x, (s.items es before).bound x = s.bound x - before.count x) ∧
    ∀ x, x ∈ (s.items es before).free ↔ x ∈ s.free ∨ s.bound x = 0 ∧ x ∈ Expr.freeItems es := by
  induction es generalizing s before with
  | nil =>
    rw [items, Expr.freeItems_nil]
    refine ⟨fun x => ?_, fun x => ?_⟩
    · have hx := bound_foldl_unbind id before s x
      rwa [List.map_id] at hx
    · have hx := free_foldl_unbind id before s
      simp only [id_eq] at hx
      simp [hx]
  | cons e es ih =>
    rw [List.forall_mem_cons] at hes
    have he := hes.1 s hs
    cases hbound : e.boundAfter? with
    | none =>
      obtain ⟨hb, hf⟩ := ih hes.2 (he.counts hs) before
      rw [items, hbound]
      refine ⟨fun x => by rw [hb, he.bound], fun x => ?_⟩
      rw [hf, he.free, he.bound, Expr.mem_freeItems_cons, hbound]
      simp
      tauto
    | some name =>
      obtain ⟨hb, hf⟩ := ih hes.2 ((he.counts hs).bind name) (before ++ [name])
      rw [items, hbound]
      refine ⟨fun x => ?_, fun x => ?_⟩
      · rw [hb, bound_bind, he.bound, List.count_append, List.count_singleton]
        simp only [beq_iff_eq, @eq_comm _ name x]
        by_cases hx : x = name <;> simp [hx]
      · have hx := hs x
        have h0 : ((s.expr e).bind name).bound x = 0 ↔ s.bound x = 0 ∧ x ≠ name := by
          rw [bound_bind, he.bound]
          split <;> simp_all
          omega
        have hfree : ((s.expr e).bind name).free = (s.expr e).free := rfl
        rw [hf, h0, hfree, he.free, Expr.mem_freeItems_cons, hbound, ne_eq, ne_eq, Option.some_inj,
          @eq_comm _ name x]
        tauto

theorem expr_collects (e : Expr) : Traverses e := by
  induction e with
  | absent => exact fun s _ => .none s
  | int value ty => exact fun s _ => .none s
  | str value ty => exact fun s _ => .none s
  | other kind => exact fun s _ => .none s
  | var name typeArgs ty => exact fun s _ => .meet s name
  | func params result body ty ih =>
    intro s hs
    rw [Expr.free, expr]
    exact .binding hs _ params (ih _ (counts_foldl_bind hs _ params))
  | call callee args ty ihf iha =>
    intro s hs
    have hf := ihf s hs
    rw [Expr.free, expr]
    exact hf.append (exprs_collects iha (hf.counts hs))
  | letIn name annot value body ty ihv ihb =>
    intro s hs
    have hv := ihv s hs
    have hb := Collects.binding (hv.counts hs) id [name] (ihb _ ((hv.counts hs).bind name))
    rw [Expr.free, expr]
    refine hv.append ?_
    by_cases hbody : body.isAbsent = true
    · rw [if_pos hbody, Expr.isAbsent_iff.mp hbody, Expr.free, List.filter_nil]
      exact .none _
    · rw [if_neg hbody]
      simpa [bne, @eq_comm _ name, BEq.comm] using hb
  | group bs body ty ihf ihb =>
    intro s hs
    have hcounts := counts_foldl_bind hs Binding.name bs
    have hf := functions_collects ihf hcounts
    rw [Expr.free, expr]
    exact .binding hs _ bs (hf.append (ihb _ (hf.counts hcounts)))
  | array item items ty ih =>
    intro s hs
    rw [Expr.free, expr]
    exact exprs_collects ih hs
  | seq effect value ty ihe ihv =>
    intro s hs
    have he := ihe s hs
    rw [Expr.free, expr]
    exact he.append (ihv _ (he.counts hs))
  | block es ty ih =>
    intro s hs
    obtain ⟨hb, hf⟩ := items_collects ih hs []
    rw [Expr.free, expr]
    exact ⟨funext fun x => by simp [hb x], hf⟩

end NameScope

/-- The free names are the names of free occurrences. -/
theorem Expr.mem_freeNames {e : Expr} {x : String} : x ∈ e.freeNames ↔ x ∈ e.free := by
  rw [freeNames, List.mem_mergeSort, (NameScope.expr_collects e _ NameScope.counts_empty).free]
  simp [NameScope.empty]

/-- The names of a function that a group looks up are those that are free in it. -/
theorem Binding.mem_function {b : Binding} {x : String} :
    x ∈ (NameScope.empty.function b).free ↔ x ∈ Expr.freeBinding b := by
  rw [(NameScope.function_collects (fun e _ => NameScope.expr_collects e) NameScope.counts_empty).free]
  simp [NameScope.empty]

end Polytype
