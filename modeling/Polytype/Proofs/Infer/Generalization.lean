import Mathlib
import Polytype.Infer.Generalize
import Polytype.Proofs.Env
import Polytype.Proofs.Expr.Nodes
import Polytype.Proofs.NameSupply
import Polytype.Proofs.Ty.Vocabulary
import Polytype.Proofs.Store.Unification
import Polytype.Proofs.Store.VarSet

/-!
# Generalisation

`closeOver` replaces the variables of a type that the environment does not mention by names; `closing` is
its result without the supply of names, on which it does not depend. The main result, `closing_closes`,
says which variables these are and in which order, that their names differ from one another, from all
constructors of the type and from the parameters of groups inside, and that the store which comes with the
scheme is the old one with the names put in (`Closes`).
-/

namespace Polytype

/-- The unification that runs is the bounded one. -/
theorem Traversals.unify_eq (s : Store) (a b : Ty) : Traversals.unify s a b = s.unify a b := rfl

/-! ## First occurrences -/

/-- The variables of a list that are not among others, each once, in the order of their first
occurrences. -/
def firstsNotIn (l others : List Int) : List Int :=
  (VarSet.empty.addAll (l.filter fun v => !others.contains v)).ids

theorem mem_firstsNotIn {l others : List Int} {v : Int} :
    v ∈ firstsNotIn l others ↔ v ∈ l ∧ v ∉ others := by
  rw [firstsNotIn, Store.mem_addAll, List.mem_filter]
  simp [VarSet.empty]

theorem nodup_firstsNotIn (l others : List Int) : (firstsNotIn l others).Nodup :=
  (VarSet.empty.addAll _).nodup

theorem firstsNotIn_congr {l others others' : List Int} (h : ∀ v, v ∈ others ↔ v ∈ others') :
    firstsNotIn l others = firstsNotIn l others' := by
  have hcontains : ∀ v, others.contains v = others'.contains v := fun v => by
    rw [Bool.eq_iff_iff, List.contains_iff_mem, List.contains_iff_mem, h v]
  simp only [firstsNotIn, hcontains]

/-- First occurrences after each variable was replaced by another one, if it counts, and otherwise by
variables that do not count. -/
theorem firstsNotIn_flatMap {l others others' : List Int} {h : Int → List Int} {f : Int → Int}
    (hin : ∀ v ∈ l, v ∉ others → h v = [f v] ∧ f v ∉ others')
    (hout : ∀ v ∈ l, v ∈ others → ∀ w ∈ h v, w ∈ others')
    (hf : ∀ v ∈ l, ∀ w ∈ l, f v = f w → v = w) :
    firstsNotIn (l.flatMap h) others' = (firstsNotIn l others).map f := by
  have hfilter : (l.flatMap h).filter (fun v => !others'.contains v) =
      (l.filter fun v => !others.contains v).map f := by
    clear hf
    induction l with
    | nil => rfl
    | cons v l ih =>
      rw [List.forall_mem_cons] at hin hout
      rw [List.flatMap_cons, List.filter_append, ih hin.2 hout.2, List.filter_cons]
      by_cases hv : v ∈ others
      · have hnil : (h v).filter (fun w => !others'.contains w) = [] := by
          rw [List.filter_eq_nil_iff]
          intro w hw
          simpa using hout.1 hv w hw
        rw [hnil, if_neg (by simpa using hv), List.nil_append]
      · simp [(hin.1 hv).1, (hin.1 hv).2, hv]
  rw [firstsNotIn, hfilter, firstsNotIn]
  refine VarSet.addAll_map f rfl fun v hv w hw => ?_
  have hsub : ∀ c ∈ VarSet.empty.ids ++ l.filter (fun v => !others.contains v), c ∈ l := by
    intro c hc
    simp only [VarSet.empty, List.nil_append] at hc
    exact (List.mem_filter.mp hc).1
  exact hf v (hsub v hv) w (hsub w hw)

theorem pairwise_firstsNotIn (l others : List Int) :
    (firstsNotIn l others).Pairwise fun v w => l.idxOf v < l.idxOf w :=
  @VarSet.pairwise_addAll_filter _ l [] .empty (by simp [VarSet.empty]) List.Pairwise.nil

/-! ## The variables of an environment -/

namespace Env

theorem foldlM_collectEntry {s : Store} {l : List (String × Option Scheme)} {vs ws : VarSet}
    (h : l.foldlM (collectEntry s) vs = .ok ws) (v : Int) :
    v ∈ ws.ids ↔ v ∈ vs.ids ∨
      (s.owns v = true ∧ v ∈ l.flatMap fun (_, g) =>
        (g.map fun g => (s.resolve g.body).vars).getD []) := by
  induction l generalizing vs with
  | nil =>
    cases h
    simp
  | cons p l ih =>
    obtain ⟨x, g⟩ := p
    cases g with
    | none => cases h
    | some g =>
      change l.foldlM (collectEntry s) (s.collect vs g.body) = .ok ws at h
      rw [ih h, Store.mem_collect, List.flatMap_cons, List.mem_append]
      simp only [Option.map_some, Option.getD_some]
      tauto

/-- The free variables of an environment are those of its resolved types that the store owns. -/
theorem mem_freeVars {s : Store} {env : Env} {ws : VarSet} (h : env.freeVars s = .ok ws) (v : Int) :
    ws.has v = true ↔ s.owns v = true ∧ v ∈ env.varsUnder s.resolve := by
  rw [VarSet.has, List.contains_iff_mem, foldlM_collectEntry h, varsUnder]
  simp [VarSet.empty]

theorem foldlM_collectEntry_isOk {s : Store} {l : List (String × Option Scheme)} {vs : VarSet} :
    (∃ ws, l.foldlM (collectEntry s) vs = .ok ws) ↔ ∀ p ∈ l, p.2 ≠ none := by
  induction l generalizing vs with
  | nil => exact iff_of_true ⟨vs, rfl⟩ (by simp)
  | cons p l ih =>
    obtain ⟨x, g⟩ := p
    rw [List.forall_mem_cons]
    cases g with
    | none => exact iff_of_false (by rintro ⟨_, ⟨⟩⟩) (by simp)
    | some g => exact (@ih (s.collect vs g.body)).trans (by simp)

/-- The free variables can be collected when every name that is bound has a type. -/
theorem freeVars_isOk {env : Env} {s : Store} : (∃ ws, env.freeVars s = .ok ws) ↔ env.Present := by
  rw [freeVars, foldlM_collectEntry_isOk]
  constructor
  · exact fun h x hx => h (x, none) (mem_entries.mpr hx) rfl
  · rintro h ⟨x, g⟩ hp rfl
    exact h x (mem_entries.mp hp)

theorem foldlM_collectEntry_error {s : Store} {l : List (String × Option Scheme)} {vs : VarSet} {f : Fault}
    (h : l.foldlM (collectEntry s) vs = .error f) : f = .missingScheme := by
  induction l generalizing vs with
  | nil => cases h
  | cons p l ih =>
    obtain ⟨x, g⟩ := p
    cases g with
    | none =>
      cases h
      rfl
    | some g => exact ih h

theorem freeVars_error {env : Env} {s : Store} {f : Fault} (h : env.freeVars s = .error f) :
    f = .missingScheme :=
  foldlM_collectEntry_error h

end Env

/-! ## Naming variables in a store -/

namespace Store

/-- Binding an unbound variable to a closed type replaces it everywhere. -/
theorem resolve_bind {s : Store} (h : s.Acyclic) {id : Int} {c : Ty} (hid : s.owns id = true)
    (hfree : s.binding? id = none) (hc : c.vars = []) (u : Ty) :
    (s.bind id c).resolve u = (s.resolve u).subst fun i => if i = id then c else .var i := by
  have hne : c ≠ .var id := by
    rintro rfl
    simp at hc
  have ha : (s.bind id c).Acyclic := h.bind hid hfree (by simp [hc])
  rw [resolve_eq_subst s, Ty.subst_subst]
  induction u using ha.induct with
  | absent => simp
  | free i hb =>
    by_cases hi : i = id
    · subst hi
      rw [binding?_bind_self hid hne] at hb
      cases hb
    · rw [resolve_free hb]
      rw [binding?_bind_of_ne c hi] at hb
      simp [resolve_free hb, hi]
  | bound i t hb ih =>
    rw [resolve_bound ha hb, ih]
    by_cases hi : i = id
    · subst hi
      rw [binding?_bind_self hid hne] at hb
      cases hb
      rw [Ty.subst_closed hc]
      simp [resolve_free hfree]
    · rw [binding?_bind_of_ne c hi] at hb
      rw [Ty.subst_var, resolve_bound h hb, resolve_eq_subst s t, Ty.subst_subst]
  | con name args ih =>
    rw [resolve_con, Ty.subst_con]
    exact congrArg _ (List.map_congr_left ih)

end Store

theorem named_cons (id : Int) (ids : List Int) (n : String) (names : List String) (i : Int) :
    named (id :: ids) (n :: names) i = if i = id then .con n [] else named ids names i := by
  rw [named, assign, List.map_cons, List.zip_cons_cons, List.lookup_cons]
  by_cases hi : i = id
  · simp [hi]
  · have : (i == id) = false := by simpa using hi
    simp [this, hi, named, assign]

/-- The names that variables get in order, and the store in which they are bound to these. -/
def nameAll (t : Ty) : List Int → NameSupply → Store → List String × Store
  | [], _, s => ([], s)
  | id :: ids, supply, s =>
    let (name, supply) := supply.takeAvoiding t
    let (names, s) := nameAll t ids supply (s.bind id (.con name []))
    (name :: names, s)

/-- Variables of the store are named without a fault. -/
theorem nameVars_eq (t : Ty) {ids : List Int} (supply : NameSupply) {s : Store}
    (h : ∀ i ∈ ids, s.owns i = true) : ∃ supply', nameVars t ids supply s =
      .ok ((nameAll t ids supply s).1, (nameAll t ids supply s).2, supply') := by
  induction ids generalizing supply s with
  | nil => exact ⟨supply, rfl⟩
  | cons id ids ih =>
    rw [List.forall_mem_cons] at h
    have hbind : s.bind? id (.con (supply.takeAvoiding t).1 []) =
        some (s.bind id (.con (supply.takeAvoiding t).1 [])) := by
      rw [Store.bind?, if_pos h.1]
    have howns : ∀ i ∈ ids, (s.bind id (.con (supply.takeAvoiding t).1 [])).owns i = true := by
      intro i hi
      rw [Store.owns_bind]
      exact h.2 i hi
    obtain ⟨supply', hrest⟩ := ih (supply.takeAvoiding t).2 howns
    refine ⟨supply', ?_⟩
    simp only [nameVars, Traversals.nextName, bind, Except.bind, hbind, hrest]
    rfl

/-- What naming variables in order results in. -/
structure Names (t : Ty) (ids : List Int) (supply : NameSupply) (s : Store)
    (r : List String × Store) : Prop where
  length : r.1.length = ids.length
  nodup : r.1.Nodup
  generated : ∀ n ∈ r.1, ∃ k : Nat, supply.next ≤ k ∧ n = genericName k
  taken : ∀ n ∈ r.1, n ∉ supply.taken
  new : ∀ n ∈ r.1, n ∉ t.names
  resolve : ∀ u, r.2.resolve u = (s.resolve u).subst (named ids r.1)

theorem nameAll_names (t : Ty) {ids : List Int} (hd : ids.Nodup) (supply : NameSupply) {s : Store}
    (h : s.Acyclic) (hids : ∀ i ∈ ids, s.owns i = true ∧ s.binding? i = none) :
    Names t ids supply s (nameAll t ids supply s) := by
  induction ids generalizing supply s with
  | nil =>
    refine ⟨rfl, List.nodup_nil, by simp [nameAll], by simp [nameAll], by simp [nameAll], ?_⟩
    intro u
    exact (Ty.subst_id _).symm
  | cons id ids ih =>
    obtain ⟨j, hj, htake, hnt, hnn⟩ := supply.takeAvoiding_spec t
    rw [List.nodup_cons] at hd
    rw [List.forall_mem_cons] at hids
    obtain ⟨⟨hown, hfree⟩, hids⟩ := hids
    have hbind : (s.bind id (.con (genericName j) [])).Acyclic := h.bind hown hfree (by simp)
    have hrest := ih hd.2 { supply with next := j + 1 } hbind fun i hi => by
      have hne : i ≠ id := fun he => hd.1 (he ▸ hi)
      rw [Store.owns_bind, Store.binding?_bind_of_ne _ hne]
      exact hids i hi
    rw [nameAll, htake]
    refine ⟨?_, ?_, ?_, ?_, ?_, ?_⟩
    · simpa using hrest.length
    · refine List.nodup_cons.mpr ⟨fun hm => ?_, hrest.nodup⟩
      -- later names have later indices
      obtain ⟨k, hk, heq⟩ := hrest.generated _ hm
      have := genericName_injective heq
      simp only at hk
      omega
    · rw [List.forall_mem_cons]
      refine ⟨⟨j, hj, rfl⟩, fun n hn => ?_⟩
      obtain ⟨k, hk, heq⟩ := hrest.generated n hn
      exact ⟨k, by simp only at hk; omega, heq⟩
    · rw [List.forall_mem_cons]
      exact ⟨hnt, hrest.taken⟩
    · rw [List.forall_mem_cons]
      exact ⟨hnn, hrest.new⟩
    · intro u
      rw [hrest.resolve, Store.resolve_bind h hown hfree (by simp), Ty.subst_subst]
      refine Ty.subst_congr fun i _ => ?_
      rw [named_cons]
      split <;> simp

/-- The names depend only on the constructors of the type and the number of the variables. -/
theorem nameAll_congr {t t' : Ty} (hn : t'.names = t.names) {ids ids' : List Int}
    (hl : ids'.length = ids.length) (supply : NameSupply) (s s' : Store) :
    (nameAll t' ids' supply s').1 = (nameAll t ids supply s).1 := by
  induction ids generalizing ids' supply s s' with
  | nil =>
    obtain rfl := List.length_eq_zero_iff.mp hl
    rfl
  | cons id ids ih =>
    cases ids' with
    | nil => cases hl
    | cons id' ids' =>
      have htake : supply.takeAvoiding t' = supply.takeAvoiding t := by
        rw [NameSupply.takeAvoiding, NameSupply.takeAvoiding, hn]
      rw [nameAll, nameAll, htake]
      exact congrArg ((supply.takeAvoiding t).1 :: ·) (ih (Nat.succ.inj hl) _ _ _)

/-! ## Closing a type -/

/-- A parameter of a group inside is among the names to avoid. -/
theorem mem_groupParams {e n : Expr} {g : Scheme} {p : String} (hn : .ok n ∈ e.visits)
    (hg : g ∈ n.generics) (hp : p ∈ g.params) : p ∈ e.groupParams := by
  rw [Expr.groupParams, List.mem_flatMap]
  refine ⟨.ok n, hn, ?_⟩
  cases n with
  | group bindings body ty =>
    obtain ⟨b, hb, hs⟩ := List.mem_filterMap.mp hg
    refine List.mem_flatMap.mpr ⟨b, hb, ?_⟩
    rw [hs]
    exact hp
  | _ => cases hg

/-- The variables of a store that a type, resolved there, has and the types of an environment do not
mention, in the order of their first occurrences. -/
def Store.generalizable (s : Store) (env : Env) (t : Ty) : List Int :=
  firstsNotIn ((s.resolve t).vars.filter s.owns) (env.varsUnder s.resolve)

theorem Store.mem_generalizable {s : Store} {env : Env} {t : Ty} {v : Int} :
    v ∈ s.generalizable env t ↔
      (v ∈ (s.resolve t).vars ∧ s.owns v = true) ∧ v ∉ env.varsUnder s.resolve := by
  rw [generalizable, mem_firstsNotIn, List.mem_filter]

theorem Store.generalizable_of_owns {s : Store} {t : Ty}
    (ht : ∀ v ∈ (s.resolve t).vars, s.owns v = true) (env : Env) :
    s.generalizable env t = firstsNotIn (s.resolve t).vars (env.varsUnder s.resolve) := by
  rw [generalizable, List.filter_eq_self.mpr ht]

/-- A scheme, and perhaps a store, that closing a type in an environment results in. -/
structure Closes (s : Store) (env : Env) (t : Ty) (scope : Expr) (g : Scheme)
    (store? : Option Store) : Prop where
  length : g.params.length = (s.generalizable env t).length
  nodup : g.params.Nodup
  generated : ∀ p ∈ g.params, ∃ k : Nat, p = genericName k
  new : ∀ p ∈ g.params, p ∉ (s.resolve t).names
  apart : ∀ p ∈ g.params, p ∉ scope.groupParams
  body : g.body = (s.resolve t).subst (named (s.generalizable env t) g.params)
  /-- The names are chosen by the type, its variables and the names to avoid. -/
  chosen : g.params = (nameAll (s.resolve t) (s.generalizable env t)
    (scope.groupParams.foldl NameSupply.avoid .new) s).1
  /-- Without a store there are no parameters; otherwise the store has them in the place of the
  variables. -/
  same : store? = none → g.params = []
  store : ∀ s', store? = some s' →
    ∀ u, s'.resolve u = (s.resolve u).subst (named (s.generalizable env t) g.params)

/-- The instances of the scheme are the resolved type with types for the variables that were named. -/
theorem Closes.applyUnder {s : Store} {env : Env} {t : Ty} {scope : Expr} {g : Scheme}
    {store? : Option Store} (h : Closes s env t scope g store?) {args : List Ty}
    (ha : args.length = g.params.length) (σ : Int → Ty) :
    g.applyUnder σ args = (s.resolve t).subst (assign (s.generalizable env t) args σ) := by
  obtain ⟨params, body⟩ := g
  have hbody := h.body
  simp only at hbody
  subst hbody
  exact Scheme.applyUnder_named h.nodup h.length.symm ha fun p hp hm =>
    h.new p hp (Ty.names_of_consts hm)

/-- The constructors of the scheme besides its parameters are those of the type. -/
theorem Closes.mem_consts {s : Store} {env : Env} {t : Ty} {scope : Expr} {g : Scheme}
    {store? : Option Store} (h : Closes s env t scope g store?) {c : String} :
    c ∈ (s.resolve t).consts ↔ c ∈ g.body.consts ∧ c ∉ g.params := by
  rw [h.body, Ty.mem_consts_subst]
  constructor
  · exact fun hc => ⟨.inl hc, fun hp => h.new c hp (Ty.names_of_consts hc)⟩
  · rintro ⟨hc | ⟨i, _, hc⟩, hp⟩
    · exact hc
    · exact absurd (mem_consts_named hc) hp

theorem closes_mono {s : Store} {env : Env} {t : Ty} {scope : Expr}
    (h : s.generalizable env t = []) : Closes s env t scope (.mono (s.resolve t)) none where
  length := by rw [h]; rfl
  nodup := List.nodup_nil
  generated := by simp [Scheme.mono]
  new := by simp [Scheme.mono]
  apart := by simp [Scheme.mono]
  body := by
    rw [h]
    exact (Ty.subst_id _).symm
  chosen := by
    rw [h]
    rfl
  same := fun _ => rfl
  store := by simp

theorem generalizable_eq {s : Store} (h : s.Acyclic) {env : Env} {t : Ty} {bound : VarSet}
    (hb : env.freeVars s = .ok bound) :
    (s.free (s.resolve t)).without bound = s.generalizable env t := by
  have hopen : s.openWithin s.size (s.resolve t) = (s.resolve t).vars.filter s.owns := by
    rw [Store.openWithin_eq]
    show (s.resolve (s.resolve t)).vars.filter _ = _
    rw [Store.resolve_resolve h]
  have hempty : VarSet.empty.ids = VarSet.empty.ids.filter fun v => !bound.has v := rfl
  rw [VarSet.without, Store.free, Store.collect, hopen, ← VarSet.addAll_filter _ hempty,
    Store.generalizable, firstsNotIn]
  have hfilter : ((s.resolve t).vars.filter s.owns).filter (fun v => !bound.has v) =
      ((s.resolve t).vars.filter s.owns).filter fun v =>
        !(env.varsUnder s.resolve).contains v := by
    refine List.filter_congr fun v hv => ?_
    congr 1
    rw [Bool.eq_iff_iff, Env.mem_freeVars hb, List.contains_iff_mem]
    exact ⟨fun hm => hm.2, fun hm => ⟨(List.mem_filter.mp hv).2, hm⟩⟩
  rw [hfilter]

section

variable {s : Store} {env : Env} {t : Ty} {scope : Expr}

theorem closeOver_of_closed (hfree : (s.free (s.resolve t)).ids.isEmpty = true) (names : NameSupply) :
    closeOver s names env t scope = .ok (.mono (s.resolve t), none, names) := by
  rw [Store.free] at hfree
  simp only [closeOver, Traversals.resolve, Traversals.collect, bind, Except.bind, hfree, if_true]
  rfl

theorem closeOver_of_missing (hfree : (s.free (s.resolve t)).ids.isEmpty = false)
    (hb : ∀ bound, env.freeVars s ≠ .ok bound) (names : NameSupply) :
    closeOver s names env t scope = .error .missingScheme := by
  rw [Store.free] at hfree
  simp only [closeOver, Traversals.resolve, Traversals.collect, bind, Except.bind, hfree, Bool.false_eq_true,
    if_false]
  cases hv : env.freeVars s with
  | ok bound => exact absurd hv (hb bound)
  | error f => rw [Env.freeVars_error hv]

theorem closeOver_of_bound {bound : VarSet} (hfree : (s.free (s.resolve t)).ids.isEmpty = false)
    (hb : env.freeVars s = .ok bound) (hids : ((s.free (s.resolve t)).without bound).isEmpty = true)
    (names : NameSupply) : closeOver s names env t scope = .ok (.mono (s.resolve t), none, names) := by
  rw [Store.free] at hfree hids
  simp only [closeOver, Traversals.resolve, Traversals.collect, bind, Except.bind, hfree, Bool.false_eq_true,
    if_false, hb, hids, if_true]
  rfl

/-- The names for the variables that are not bound start again from the first. -/
theorem closeOver_of_free {bound : VarSet} (hfree : (s.free (s.resolve t)).ids.isEmpty = false)
    (hb : env.freeVars s = .ok bound) {ids : List Int} (heq : (s.free (s.resolve t)).without bound = ids)
    (hids : ids.isEmpty = false) {named : List String × Store}
    (hnamed : nameAll (s.resolve t) ids (scope.groupParams.foldl NameSupply.avoid .new) s = named)
    (names : NameSupply) :
    ∃ names', closeOver s names env t scope =
      .ok (⟨named.1, named.2.resolve (s.resolve t)⟩, some named.2, names') := by
  have howns : ∀ i ∈ ids, s.owns i = true := by
    rintro i hi
    rw [← heq, VarSet.without, List.mem_filter, Store.mem_free] at hi
    exact hi.1.2
  obtain ⟨names', hvars⟩ := nameVars_eq (s.resolve t) (scope.groupParams.foldl NameSupply.avoid .new) howns
  refine ⟨names', ?_⟩
  rw [Store.free] at hfree heq
  have hreset : names.reset = .new := rfl
  simp only [closeOver, Traversals.resolve, Traversals.collect, bind, Except.bind, hfree, Bool.false_eq_true,
    if_false, hb, heq, hids, hreset, hvars, hnamed]
  rfl

/-- What closing a type results in, whatever names were handed out before. -/
def closing (s : Store) (env : Env) (t : Ty) (scope : Expr) : Except Fault (Scheme × Option Store) :=
  (closeOver s .new env t scope).map fun r => (r.1, r.2.1)

theorem closing_eq (names : NameSupply) :
    (closeOver s names env t scope).map (fun r => (r.1, r.2.1)) = closing s env t scope := by
  rw [closing]
  cases hfree : (s.free (s.resolve t)).ids.isEmpty with
  | true => rw [closeOver_of_closed hfree, closeOver_of_closed hfree]; rfl
  | false =>
    by_cases hb : ∃ bound, env.freeVars s = .ok bound
    · obtain ⟨bound, hb⟩ := hb
      cases hids : ((s.free (s.resolve t)).without bound).isEmpty with
      | true => rw [closeOver_of_bound hfree hb hids, closeOver_of_bound hfree hb hids]; rfl
      | false =>
        obtain ⟨_, h⟩ := @closeOver_of_free s env t scope bound hfree hb _ rfl hids _ rfl names
        obtain ⟨_, h'⟩ := @closeOver_of_free s env t scope bound hfree hb _ rfl hids _ rfl .new
        rw [h, h']
        rfl
    · have hb : ∀ bound, env.freeVars s ≠ .ok bound := fun bound h => hb ⟨bound, h⟩
      rw [closeOver_of_missing hfree hb, closeOver_of_missing hfree hb]

/-- Closing a type has the same result with every supply of names. -/
theorem closing_eq_ok {g : Scheme} {store? : Option Store} :
    closing s env t scope = .ok (g, store?) ↔
      ∀ names, ∃ names', closeOver s names env t scope = .ok (g, store?, names') := by
  constructor
  · intro h names
    rw [← closing_eq names] at h
    cases hc : closeOver s names env t scope with
    | error f =>
      rw [hc] at h
      cases h
    | ok r =>
      rw [hc] at h
      cases h
      exact ⟨_, rfl⟩
  · intro h
    obtain ⟨names', hc⟩ := h .new
    rw [closing, hc]
    rfl

end

/-- Closing a type names the variables that the environment does not mention. -/
theorem closing_closes {s : Store} (h : s.Acyclic) {env : Env} {t : Ty} {scope : Expr}
    {g : Scheme} {store? : Option Store} (hc : closing s env t scope = .ok (g, store?)) :
    Closes s env t scope g store? := by
  rw [closing] at hc
  by_cases hfree : (s.free (s.resolve t)).ids.isEmpty = true
  · rw [closeOver_of_closed hfree] at hc
    cases hc
    refine closes_mono (List.eq_nil_iff_forall_not_mem.mpr fun v hv => ?_)
    have hm : v ∈ (s.free (s.resolve t)).ids := by
      rw [Store.mem_free, Store.resolve_resolve h]
      exact (Store.mem_generalizable.mp hv).1
    rw [List.isEmpty_iff.mp hfree] at hm
    cases hm
  · rw [Bool.not_eq_true] at hfree
    by_cases hb : ∃ bound, env.freeVars s = .ok bound
    · obtain ⟨bound, hb⟩ := hb
      have hgen := @generalizable_eq s h env t bound hb
      cases hids : (s.generalizable env t).isEmpty with
      | true =>
        rw [closeOver_of_bound hfree hb (hgen ▸ hids)] at hc
        cases hc
        exact closes_mono (List.isEmpty_iff.mp hids)
      | false =>
        have hopen : ∀ i ∈ s.generalizable env t, s.owns i = true ∧ s.binding? i = none := by
          intro i hi
          obtain ⟨hi, howns⟩ := (Store.mem_generalizable.mp hi).1
          exact ⟨howns, Store.binding?_of_mem_resolve h hi⟩
        have hdup : (s.generalizable env t).Nodup := nodup_firstsNotIn _ _
        have hn := nameAll_names (s.resolve t) hdup
          (scope.groupParams.foldl NameSupply.avoid .new) h hopen
        obtain ⟨_, hclose⟩ := @closeOver_of_free s env t scope bound hfree hb _ hgen hids _ rfl .new
        rw [hclose] at hc
        cases hc
        refine ⟨hn.length, hn.nodup, ?_, hn.new, ?_, ?_, rfl, by simp, ?_⟩
        · intro p hp
          obtain ⟨k, _, hk⟩ := hn.generated p hp
          exact ⟨k, hk⟩
        · exact fun p hp hm => hn.taken p hp ((NameSupply.taken_avoid _ _ _).mpr (.inl hm))
        · have hbody := hn.resolve (s.resolve t)
          rwa [Store.resolve_resolve h] at hbody
        · rintro s' hs'
          cases hs'
          exact hn.resolve

    · rw [closeOver_of_missing hfree fun bound h => hb ⟨bound, h⟩] at hc
      cases hc

/-- Closing a type succeeds when it has no variables to close over, or every name that is bound has a
type. -/
theorem closing_isOk {s : Store} {env : Env} {t : Ty} {scope : Expr} :
    (∃ r, closing s env t scope = .ok r) ↔
      (s.free (s.resolve t)).ids.isEmpty = true ∨ env.Present := by
  rw [← @Env.freeVars_isOk env s, closing]
  cases hfree : (s.free (s.resolve t)).ids.isEmpty with
  | true =>
    rw [closeOver_of_closed hfree]
    exact iff_of_true ⟨_, rfl⟩ (.inl rfl)
  | false =>
    simp only [Bool.false_eq_true, false_or]
    by_cases hb : ∃ bound, env.freeVars s = .ok bound
    · obtain ⟨bound, hb⟩ := hb
      refine iff_of_true ?_ ⟨bound, hb⟩
      cases hids : ((s.free (s.resolve t)).without bound).isEmpty with
      | true =>
        rw [closeOver_of_bound hfree hb hids]
        exact ⟨_, rfl⟩
      | false =>
        obtain ⟨_, hclose⟩ := @closeOver_of_free s env t scope bound hfree hb _ rfl hids _ rfl .new
        rw [hclose]
        exact ⟨_, rfl⟩
    · rw [closeOver_of_missing hfree fun bound h => hb ⟨bound, h⟩]
      exact iff_of_false (by rintro ⟨_, ⟨⟩⟩) hb

/-- What keeps a type from being closed is a name that is bound to no type. -/
theorem closing_error {s : Store} {env : Env} {t : Ty} {scope : Expr} {f : Fault}
    (h : closing s env t scope = .error f) : f = .missingScheme := by
  have hnot : ¬ ∃ r, closing s env t scope = .ok r := by
    rw [h]
    rintro ⟨_, ⟨⟩⟩
  rw [closing_isOk, not_or, ← @Env.freeVars_isOk env s, Bool.not_eq_true] at hnot
  rw [closing, closeOver_of_missing hnot.1 fun bound hb => hnot.2 ⟨bound, hb⟩] at h
  cases h
  rfl

end Polytype
