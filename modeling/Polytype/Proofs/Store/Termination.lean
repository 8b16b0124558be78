import Mathlib
import Polytype.Proofs.Store.Unification
import Polytype.Proofs.Unbounded

/-!
# Traversals end

The traversals of a store carry budgets. Without them they are the functions of this module, which
follow bindings as long as there are any: a result is `none` where a traversal would not end. In an
acyclic store none of them is, and each returns what the traversal with a budget returns
(`Store.Acyclic.findLoop_eq` and the lemmas after it).

Only the occurs check keeps a store acyclic. `Store.Step` gives the operations on a number of stores that
were all copied from the empty one, among them unification of any two types, whether it succeeds or stops
halfway; `Store.Step.acyclic` says that each keeps all stores acyclic.
-/

namespace Polytype.Store

/-! ## Traversals without budgets -/

/-- One step along a chain of bindings. -/
def findOnce (s : Store) (self : Ty → Option Ty) : Ty → Option Ty
  | .var id =>
    match s.binding? id with
    | some u => self u
    | none => some (.var id)
  | t => some t

/-- The end of a chain of bindings. -/
noncomputable def findLoop (s : Store) (t : Ty) : Option Ty := unbounded s.findOnce t

/-- Resolution of a type, given that of its arguments. -/
noncomputable def resolveOnce (s : Store) (self : Ty → Option Ty) (t : Ty) : Option Ty := do
  match ← s.findLoop t with
  | .con name args => return .con name (← args.mapM self)
  | t => return t

/-- A type with its bound variables replaced. -/
noncomputable def resolveLoop (s : Store) (t : Ty) : Option Ty := unbounded s.resolveOnce t

/-- The search of a type for a variable, given that of its arguments. -/
noncomputable def occursOnce (s : Store) (id : Int) (self : Ty → Option Bool) (t : Ty) : Option Bool := do
  match ← s.findLoop t with
  | .var j => return j == id
  | .con _ args => args.anyM self
  | .absent => return false

/-- Whether a variable occurs in a type. -/
noncomputable def occursLoop (s : Store) (id : Int) (t : Ty) : Option Bool := unbounded (s.occursOnce id) t

/-- What a type adds to a set of variables, given what its arguments add. -/
noncomputable def collectOnce (s : Store) (self : VarSet × Ty → Option VarSet) (p : VarSet × Ty) :
    Option VarSet := do
  match ← s.findLoop p.2 with
  | .var id => return if s.owns id then p.1.add id else p.1
  | .con _ args => args.foldlM (fun vs a => self (vs, a)) p.1
  | .absent => return p.1

/-- Adds the unbound variables of a type to a set. -/
noncomputable def collectLoop (s : Store) (vs : VarSet) (t : Ty) : Option VarSet :=
  unbounded s.collectOnce (vs, t)

/-- The report that two types differ. -/
noncomputable def mismatchLoop (s : Store) (a b : Ty) : Option Unified := do
  return (s, some (.mismatch (← s.resolveLoop a) (← s.resolveLoop b)))

/-- Binds an unbound variable, unless it occurs in the type. -/
noncomputable def bindVarLoop (s : Store) (id : Int) (t : Ty) : Option Unified := do
  if ← s.occursLoop id t then return (s, some (.infinite id (← s.resolveLoop t)))
  else
    match s.bind? id t with
    | some s => return (s, none)
    | none => return (s, some (.broken .outOfRange))

/-- Unifies arguments from left to right with a given function, up to the first error. -/
def unifyArgsBy (self : Ty × Ty × Store → Option Unified) : List Ty → List Ty → Store → Option Unified
  | a :: as, b :: bs, s => do
    match ← self (a, b, s) with
    | (s, none) => unifyArgsBy self as bs s
    | failed => return failed
  | [], _, s => some (s, none)
  | _ :: _, [], s => some (s, some (.broken .outOfRange))

/-- Unification of two types, given that of their arguments. -/
noncomputable def unifyOnce (self : Ty × Ty × Store → Option Unified) :
    Ty × Ty × Store → Option Unified
  | (a, b, s) => do
    match ← s.findLoop a, ← s.findLoop b with
    | .var i, .var j =>
      if !s.owns i then return (s, some (.foreign i))
      else if !s.owns j then return (s, some (.foreign j))
      else if i = j then return (s, none)
      else s.bindVarLoop i (.var j)
    | .var i, b => if !s.owns i then return (s, some (.foreign i)) else s.bindVarLoop i b
    | .con n as, .var j =>
      if !s.owns j then return (s, some (.foreign j)) else s.bindVarLoop j (.con n as)
    | .con n as, .con m bs =>
      if Ty.sameShape n as m bs then unifyArgsBy self as bs s
      else s.mismatchLoop (.con n as) (.con m bs)
    | a, b => s.mismatchLoop a b

/-- Unifies two types. -/
noncomputable def unifyLoop (a b : Ty) (s : Store) : Option Unified := unbounded unifyOnce (a, b, s)

/-- Unifies arguments from left to right, up to the first error. -/
noncomputable def unifyArgsLoop (as bs : List Ty) (s : Store) : Option Unified :=
  unifyArgsBy (unbounded unifyOnce) as bs s

/-! ## Equations -/

theorem findLoop_unfold (s : Store) (t : Ty) : s.findLoop t = s.findOnce s.findLoop t := by
  refine unbounded_eq (fun t => ?_) t
  cases t with
  | absent => exact .const _
  | con name args => exact .const _
  | var id =>
    cases hb : s.binding? id with
    | none => simpa only [findOnce, hb] using .const _
    | some u => simpa only [findOnce, hb] using .call u

theorem resolveLoop_unfold (s : Store) (t : Ty) : s.resolveLoop t = s.resolveOnce s.resolveLoop t := by
  refine unbounded_eq (fun t => ?_) t
  refine Finitary.bind (.const _) fun u => ?_
  cases u with
  | absent => exact .const _
  | var id => exact .const _
  | con name args => exact Finitary.bind (.mapM args) fun _ => .const _

theorem occursLoop_unfold (s : Store) (id : Int) (t : Ty) :
    s.occursLoop id t = s.occursOnce id (s.occursLoop id) t := by
  refine unbounded_eq (fun t => ?_) t
  refine Finitary.bind (.const _) fun u => ?_
  cases u with
  | absent => exact .const _
  | var j => exact .const _
  | con name args => exact .anyM args

theorem collectLoop_unfold (s : Store) (vs : VarSet) (t : Ty) :
    s.collectLoop vs t = s.collectOnce (fun p => s.collectLoop p.1 p.2) (vs, t) := by
  refine unbounded_eq (fun p => ?_) (vs, t)
  refine Finitary.bind (.const _) fun u => ?_
  cases u with
  | absent => exact .const _
  | var id => exact .const _
  | con name args => exact .foldlM args p.1

theorem unifyArgsBy_finitary (as bs : List Ty) (s : Store) :
    Finitary fun self => unifyArgsBy self as bs s := by
  induction as generalizing bs s with
  | nil => exact .const _
  | cons a as ih =>
    cases bs with
    | nil => exact .const _
    | cons b bs =>
      refine Finitary.bind (.call _) fun r => ?_
      obtain ⟨s', e⟩ := r
      cases e with
      | none => exact ih bs s'
      | some e => exact .const _

theorem unifyOnce_finitary (p : Ty × Ty × Store) : Finitary fun self => unifyOnce self p := by
  obtain ⟨a, b, s⟩ := p
  refine Finitary.bind (.const _) fun ta => Finitary.bind (.const _) fun tb => ?_
  cases ta with
  | absent => exact .const _
  | var i => cases tb <;> exact .const _
  | con n as =>
    cases tb with
    | absent => exact .const _
    | var j => exact .const _
    | con m bs =>
      cases hsh : Ty.sameShape n as m bs with
      | false => simpa only [hsh] using .const _
      | true => simpa only [hsh, if_true] using unifyArgsBy_finitary as bs s

theorem unifyLoop_unfold (a b : Ty) (s : Store) :
    unifyLoop a b s = unifyOnce (unbounded unifyOnce) (a, b, s) :=
  unbounded_eq unifyOnce_finitary (a, b, s)

theorem unifyArgsLoop_nil (bs : List Ty) (s : Store) : unifyArgsLoop [] bs s = some (s, none) := rfl

theorem unifyArgsLoop_cons_nil (a : Ty) (as : List Ty) (s : Store) :
    unifyArgsLoop (a :: as) [] s = some (s, some (.broken .outOfRange)) := rfl

theorem unifyArgsLoop_cons (a : Ty) (as : List Ty) (b : Ty) (bs : List Ty) (s : Store) :
    unifyArgsLoop (a :: as) (b :: bs) s = (do
      match ← unifyLoop a b s with
      | (s, none) => unifyArgsLoop as bs s
      | failed => return failed) := rfl

/-! ## Acyclic stores -/

section

variable {s : Store}

theorem findLoop_bound {id : Int} {t : Ty} (hb : s.binding? id = some t) :
    s.findLoop (.var id) = s.findLoop t := by
  rw [findLoop_unfold, findOnce, hb]

theorem findLoop_con (name : String) (args : List Ty) :
    s.findLoop (.con name args) = some (.con name args) :=
  findLoop_unfold s _

theorem Acyclic.findLoop_eq (hs : s.Acyclic) (t : Ty) : s.findLoop t = some (s.find t) := by
  induction t using hs.induct with
  | absent => rw [findLoop_unfold, find_absent]; rfl
  | free id hb => rw [findLoop_unfold, findOnce, find_free hb, hb]
  | bound id u hb ih => rw [findLoop_bound hb, find_bound hs hb, ih]
  | con name args _ => rw [findLoop_con, find_con]

theorem Acyclic.resolveLoop_eq (hs : s.Acyclic) (t : Ty) :
    s.resolveLoop t = some (s.resolve t) := by
  induction t using hs.induct with
  | absent => rw [resolveLoop_unfold, resolveOnce, hs.findLoop_eq, find_absent, resolve_absent]; rfl
  | free id hb => rw [resolveLoop_unfold, resolveOnce, hs.findLoop_eq, find_free hb, resolve_free hb]; rfl
  | bound id u hb ih =>
    rw [resolveLoop_unfold, resolveOnce, findLoop_bound hb, ← resolveOnce, ← resolveLoop_unfold, ih,
      resolve_bound hs hb]
  | con name args ih =>
    have hargs : args.mapM s.resolveLoop = some (args.map s.resolve) := by
      clear name
      induction args with
      | nil => rfl
      | cons a as iha =>
        rw [List.forall_mem_cons] at ih
        rw [List.mapM_cons, ih.1, iha ih.2]
        rfl
    rw [resolveLoop_unfold, resolveOnce, findLoop_con, resolve_con]
    simp only [Option.bind_eq_bind, Option.bind_some, hargs]
    rfl

theorem occurs_eq (id : Int) (t : Ty) : s.occurs id t = (s.resolve t).vars.contains id :=
  occursWithin_eq s id s.size t

theorem Acyclic.occursLoop_eq (hs : s.Acyclic) (id : Int) (t : Ty) :
    s.occursLoop id t = some (s.occurs id t) := by
  rw [occurs_eq]
  induction t using hs.induct with
  | absent => rw [occursLoop_unfold, occursOnce, hs.findLoop_eq, find_absent, resolve_absent]; rfl
  | free j hb =>
    rw [occursLoop_unfold, occursOnce, hs.findLoop_eq, find_free hb, resolve_free hb, Ty.vars_var]
    exact congrArg some (by rw [List.contains_cons, List.contains_nil, Bool.or_false, Bool.beq_comm])
  | bound j u hb ih =>
    rw [occursLoop_unfold, occursOnce, findLoop_bound hb, ← occursOnce, ← occursLoop_unfold, ih,
      resolve_bound hs hb]
  | con name args ih =>
    have hargs : args.anyM (s.occursLoop id) =
        some (((args.map s.resolve).flatMap Ty.vars).contains id) := by
      clear name
      induction args with
      | nil => rfl
      | cons a as iha =>
        rw [List.forall_mem_cons] at ih
        rw [List.anyM_cons, ih.1, iha ih.2, List.map_cons, List.flatMap_cons, List.contains_append]
        cases (s.resolve a).vars.contains id <;> rfl
    rw [occursLoop_unfold, occursOnce, findLoop_con, resolve_con, Ty.vars_con, ← hargs]
    rfl

theorem collect_eq (vs : VarSet) (t : Ty) :
    s.collect vs t = vs.addAll ((s.resolve t).vars.filter s.owns) := by
  rw [collect, openWithin_eq, resolve]

theorem Acyclic.collectLoop_eq (hs : s.Acyclic) (vs : VarSet) (t : Ty) :
    s.collectLoop vs t = some (s.collect vs t) := by
  rw [collect_eq]
  induction t using hs.induct generalizing vs with
  | absent => rw [collectLoop_unfold, collectOnce, hs.findLoop_eq, find_absent, resolve_absent]; rfl
  | free id hb =>
    rw [collectLoop_unfold, collectOnce, hs.findLoop_eq, find_free hb, resolve_free hb]
    cases ho : s.owns id with
    | true => simp [ho, VarSet.addAll]
    | false => simp [ho, VarSet.addAll]
  | bound id u hb ih =>
    have hu := ih vs
    rw [collectLoop_unfold, collectOnce] at hu
    rw [collectLoop_unfold, collectOnce, findLoop_bound hb, hu, resolve_bound hs hb]
  | con name args ih =>
    have hargs : args.foldlM (fun vs a => s.collectLoop vs a) vs =
        some (vs.addAll (((args.map s.resolve).flatMap Ty.vars).filter s.owns)) := by
      clear name
      induction args generalizing vs with
      | nil => rfl
      | cons a as iha =>
        rw [List.forall_mem_cons] at ih
        rw [List.foldlM_cons, ih.1, Option.bind_eq_bind, Option.bind_some, iha ih.2, List.map_cons,
          List.flatMap_cons, List.filter_append, VarSet.addAll, VarSet.addAll, VarSet.addAll,
          List.foldl_append]
    rw [collectLoop_unfold, collectOnce, findLoop_con, resolve_con, Ty.vars_con, ← hargs]
    rfl

theorem Acyclic.mismatchLoop_eq (hs : s.Acyclic) (a b : Ty) :
    s.mismatchLoop a b = some (s.mismatch a b) := by
  rw [mismatchLoop, hs.resolveLoop_eq, hs.resolveLoop_eq]
  rfl

theorem Acyclic.bindVarLoop_eq (hs : s.Acyclic) (id : Int) (t : Ty) :
    s.bindVarLoop id t = some (s.bindVar id t) := by
  rw [bindVarLoop, hs.occursLoop_eq, hs.resolveLoop_eq, bindVar]
  cases s.occurs id t with
  | true => rfl
  | false => cases s.bind? id t <;> rfl

theorem Acyclic.find_find (hs : s.Acyclic) (t : Ty) : s.find (s.find t) = s.find t := by
  cases hf : s.find t with
  | absent => rw [find_absent]
  | var i => rw [find_free (binding?_of_find hs hf)]
  | con n as => rw [find_con]

end

/-! ## Unification -/

/-- A function returns along paths with a number of jumps what unification returns. -/
def Returns (jumps : Nat) (jump : Ty → Ty → Store → Unified) (a : Ty) : Prop :=
  ∀ b s left right, s.Acyclic → OnPath s left a → OnPath s right b →
    2 * s.size < jumps + left.length + right.length → unifyLoop a b s = some (jump a b s)

theorem unifyArgsLoop_eq {jumps : Nat} {jump : Ty → Ty → Store → Unified} {as : List Ty}
    (hf : ∀ a ∈ as, Follows jumps (unifyStep jump) a) (h : ∀ a ∈ as, Returns jumps (unifyStep jump) a)
    {bs : List Ty} {s : Store} {left right : List Int} (hs : s.Acyclic)
    (hl : ∀ a ∈ as, OnPath s left a) (hr : ∀ b ∈ bs, OnPath s right b)
    (hj : 2 * s.size < jumps + left.length + right.length) :
    unifyArgsLoop as bs s = some (unifyArgs jump as bs s) := by
  induction as generalizing bs s with
  | nil => rw [unifyArgsLoop_nil, unifyArgs]
  | cons a as ih =>
    cases bs with
    | nil => rw [unifyArgsLoop_cons_nil, unifyArgs]
    | cons b bs =>
      rw [List.forall_mem_cons] at hf h hl hr
      have hab := hf.1.single hs hl.1 hr.1 hj
      rw [unifyArgsLoop_cons, unifyArgs, h.1 b s left right hs hl.1 hr.1 hj]
      generalize unifyStep jump a b s = first at hab ⊢
      obtain ⟨s', e⟩ := first
      cases e with
      | some e => rfl
      | none =>
        obtain ⟨he, ha⟩ := hab.acyclic hs
        refine ih hf.2 h.2 ha (fun c hc => (hl.2 c hc).extend he) (fun c hc => (hr.2 c hc).extend he) ?_
        rw [he.size]
        exact hj

section

variable {s : Store}

theorem Acyclic.unifyLoop_find (hs : s.Acyclic) (a b : Ty) :
    unifyLoop a b s = unifyLoop (s.find a) (s.find b) s := by
  rw [unifyLoop_unfold, unifyLoop_unfold, unifyOnce, unifyOnce, hs.findLoop_eq, hs.findLoop_eq,
    hs.findLoop_eq (s.find a), hs.findLoop_eq (s.find b), hs.find_find, hs.find_find]

/-- Where both chains have ended, all that is left open is what happens to two constructors. -/
theorem Acyclic.unifyLoop_meet (hs : s.Acyclic) {jump : Ty → Ty → Store → Unified} {a b : Ty}
    (ha : s.find a = a) (hb : s.find b = b)
    (hcon : ∀ n as m bs, a = .con n as → b = .con m bs → unifyLoop a b s = some (jump a b s)) :
    unifyLoop a b s = some (s.meet jump a b) := by
  have hopen := unifyLoop_unfold a b s
  rw [unifyOnce, hs.findLoop_eq, hs.findLoop_eq, ha, hb] at hopen
  cases a with
  | absent => cases b <;> rw [hopen] <;> exact hs.mismatchLoop_eq _ _
  | con n as =>
    cases b with
    | absent => rw [hopen]; exact hs.mismatchLoop_eq _ _
    | con m bs => exact hcon n as m bs rfl rfl
    | var j =>
      simp only [hopen, Option.bind_eq_bind, Option.bind_some, hs.bindVarLoop_eq, meet]
      split_ifs <;> rfl
  | var i =>
    cases b <;> simp only [hopen, Option.bind_eq_bind, Option.bind_some, hs.bindVarLoop_eq, meet] <;>
      split_ifs <;> rfl

theorem unifyStep_returns {jumps : Nat} {jump : Ty → Ty → Store → Unified}
    (hf : ∀ a, Follows jumps jump a) (hjump : ∀ a, Returns jumps jump a) (a : Ty) :
    Returns (jumps + 1) (unifyStep jump) a := by
  have hmeet : ∀ {a b : Ty}, ((∀ n as, a ≠ .con n as) ∨ ∀ m bs, b ≠ .con m bs) →
      ∀ {s : Store} {left right : List Int}, s.Acyclic → OnPath s left a → OnPath s right b →
      2 * s.size < jumps + 1 + left.length + right.length →
      unifyLoop a b s = some (unifyStep jump a b s) := by
    intro a b hab s left right hs hl hr hj
    rw [unifyStep_of_not_con s hab, hs.unifyLoop_find]
    refine hs.unifyLoop_meet (hs.find_find a) (hs.find_find b) ?_
    intro n as m bs ha hb
    obtain ⟨left', hl', hle, hlt⟩ := hl.find hs ha
    obtain ⟨right', hr', hre, hrt⟩ := hr.find hs hb
    rw [ha, hb]
    refine hjump _ _ s left' right' hs hl' hr' ?_
    rcases hab with h | h
    · have := hlt h
      omega
    · have := hrt h
      omega
  induction a with
  | absent => exact fun b s left right hs hl hr hj => hmeet (by simp) hs hl hr hj
  | var i => exact fun b s left right hs hl hr hj => hmeet (by simp) hs hl hr hj
  | con n as ih =>
    intro b s left right hs hl hr hj
    cases b with
    | absent => exact hmeet (by simp) hs hl hr hj
    | var j => exact hmeet (by simp) hs hl hr hj
    | con m bs =>
      have hargs := unifyArgsLoop_eq (fun a _ => unifyStep_follows hf a) ih hs
        (fun a ha => hl.arg ha) (fun b hb => hr.arg hb) hj
      rw [unifyArgsLoop] at hargs
      rw [unifyLoop_unfold, unifyOnce, findLoop_con, findLoop_con, unifyStep]
      simp only [Option.bind_eq_bind, Option.bind_some, hargs, hs.mismatchLoop_eq]
      split <;> rfl

theorem unifyWithin_returns (jumps : Nat) (a : Ty) : Returns jumps (unifyWithin jumps) a := by
  induction jumps generalizing a with
  | zero =>
    intro b s left right _ hl hr hj
    have := hl.length_le
    have := hr.length_le
    omega
  | succ jumps ih => exact unifyStep_returns (unifyWithin_follows jumps) ih a

theorem Acyclic.unifyLoop_eq (hs : s.Acyclic) (a b : Ty) : unifyLoop a b s = some (s.unify a b) :=
  unifyWithin_returns _ a b s [] [] hs (.nil s a) (.nil s b) (by simp)

end

/-! ## Reachable stores -/

/-- An operation on one store. -/
inductive Grows : Store → Store → Prop
  | fresh (s : Store) : Grows s s.fresh.2
  | freshList (n : Nat) (s : Store) : Grows s (freshList n s).2
  | instantiate (g : Scheme) (s : Store) : Grows s (g.instantiate s).2
  | unify (a b : Ty) (s : Store) : Grows s (s.unify a b).1
  | name {s : Store} {id : Int} (c : String) : s.isUnbound? id = some true →
      Grows s (s.bind id (.con c []))

/-- An operation on a number of stores: one of them grows or is copied. -/
inductive Step : List Store → List Store → Prop
  | grow (before after : List Store) {s s' : Store} : s.Grows s' →
      Step (before ++ s :: after) (before ++ s' :: after)
  | snapshot (before after : List Store) (s : Store) :
      Step (before ++ s :: after) (before ++ s :: s :: after)

theorem binding?_of_isUnbound {s : Store} {id : Int} (h : s.isUnbound? id = some true) :
    s.owns id = true ∧ s.binding? id = none := by
  rw [isUnbound?, Option.map_eq_some_iff] at h
  obtain ⟨t, ht, hid⟩ := h
  have hself : t = .var id := of_decide_eq_true hid
  subst hself
  refine ⟨?_, by simp [binding?, ht]⟩
  by_contra ho
  simp [slot?, ho] at ht

theorem Acyclic.instantiate {s : Store} (h : s.Acyclic) (g : Scheme) :
    (g.instantiate s).2.Acyclic := by
  rw [Scheme.instantiate]
  split
  · exact h
  · exact h.freshList _

/-- An operation closes no cycle of bindings. -/
theorem Grows.acyclic {s s' : Store} (h : s.Grows s') (hs : s.Acyclic) : s'.Acyclic := by
  cases h with
  | fresh => exact hs.fresh
  | freshList n => exact hs.freshList n
  | instantiate g => exact hs.instantiate g
  | unify a b => exact unify_acyclic hs a b
  | name c hu =>
    obtain ⟨ho, hb⟩ := binding?_of_isUnbound hu
    exact hs.bind ho hb (by simp)

theorem Step.acyclic {pool pool' : List Store} (h : Step pool pool') (hp : ∀ s ∈ pool, s.Acyclic) :
    ∀ s ∈ pool', s.Acyclic := by
  cases h with
  | grow before after hg =>
    simp only [List.forall_mem_append, List.forall_mem_cons] at hp ⊢
    exact ⟨hp.1, hg.acyclic hp.2.1, hp.2.2⟩
  | snapshot before after s =>
    simp only [List.forall_mem_append, List.forall_mem_cons] at hp ⊢
    exact ⟨hp.1, hp.2.1, hp.2⟩

/-- What is reached from an empty store by operations and copies is acyclic. -/
theorem acyclic_of_steps {pool : List Store} (h : Relation.ReflTransGen Step [empty] pool) :
    ∀ s ∈ pool, s.Acyclic := by
  induction h with
  | refl =>
    intro s hs
    rw [List.mem_singleton.mp hs]
    exact acyclic_empty
  | tail _ hstep ih => exact hstep.acyclic ih

/-- Stores that are grown from the empty one stay acyclic, so that no traversal of them runs on for
ever: without a budget each returns what it returns with one. -/
theorem traversals_end {pool : List Store} (h : Relation.ReflTransGen Step [empty] pool) {s : Store}
    (hs : s ∈ pool) :
    (∀ i, ¬ Relation.TransGen s.Mentions i i) ∧
    (∀ t, s.findLoop t = some (s.find t)) ∧
    (∀ t, s.resolveLoop t = some (s.resolve t)) ∧
    (∀ id t, s.occursLoop id t = some (s.occurs id t)) ∧
    (∀ vs t, s.collectLoop vs t = some (s.collect vs t)) ∧
    ∀ a b, unifyLoop a b s = some (s.unify a b) := by
  have ha := acyclic_of_steps h s hs
  exact ⟨ha, ha.findLoop_eq, ha.resolveLoop_eq, ha.occursLoop_eq, ha.collectLoop_eq, ha.unifyLoop_eq⟩

/-- The store after a unification that stops halfway: the first variable is bound to an array of a
variable that the store does not own. -/
def stray : Store :=
  ((freshList 2 empty).2.unify (.function [.var 0] .int) (.function [.array (.var 3)] .string)).1

/-- A copy of the store allocates the variable that its binding mentions, and then refuses to close the
cycle. -/
theorem traversals_end_stray :
    Relation.ReflTransGen Step [empty] [stray, (freshList 2 stray).2] ∧
      (freshList 2 stray).2.slots = #[.array (.var 3), .var 1, .var 2, .var 3] ∧
      unifyLoop (.var 3) (.array (.var 0)) (freshList 2 stray).2 =
        some ((freshList 2 stray).2, some (.infinite 3 (.array (.array (.var 3))))) := by
  have halfway : Relation.ReflTransGen Step [empty] [stray] :=
    .tail (.single (.grow [] [] (.freshList 2 empty))) (.grow [] [] (.unify _ _ _))
  have hsteps : Relation.ReflTransGen Step [empty] [stray, (freshList 2 stray).2] :=
    .tail (.tail halfway (.snapshot [] [] stray)) (.grow [stray] [] (.freshList 2 stray))
  have hlast : (freshList 2 stray).2 ∈ [stray, (freshList 2 stray).2] := by simp
  obtain ⟨_, _, _, _, _, hunify⟩ := traversals_end hsteps hlast
  exact ⟨hsteps, rfl, hunify (.var 3) (.array (.var 0))⟩

end Polytype.Store
