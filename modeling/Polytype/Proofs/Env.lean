import Mathlib
import Polytype.Infer.Basic
import Polytype.Proofs.Store.Resolution

/-!
# Environments as finite maps

What a name is bound to after each way of extending an environment; properties of all types of an
environment (`Env.All`) and relations between two environments (`Env.Rel`), which every extension
carries along; and the variables that an environment mentions.
-/

namespace Polytype

namespace Env

/-! ## Look-up -/

theorem lookup?_extend (env : Env) (x : String) (g : Option Scheme) (y : String) :
    (env.extend x g).lookup? y = if x = y then some g else env.lookup? y := by
  simp [lookup?, extend, Std.TreeMap.getElem?_insert, Std.TreeMap.get?_eq_getElem?]

@[simp] theorem lookup?_empty (x : String) : empty.lookup? x = none := by
  simp [lookup?, empty]

theorem mem_entries {env : Env} {x : String} {g : Option Scheme} :
    (x, g) ∈ env.entries ↔ env.lookup? x = some g := by
  simp [entries, lookup?, Std.TreeMap.mem_toList_iff_getElem?_eq_some]

theorem lookup?_extendGroup_of_not_mem {bs : List Binding} {x : String} (hx : x ∉ bs.map (·.name))
    (env : Env) (gs : List Scheme) : (env.extendGroup bs gs).lookup? x = env.lookup? x := by
  induction bs generalizing env gs with
  | nil =>
    rw [Env.extendGroup]
    simp
  | cons b bs ih =>
    rw [List.map_cons, List.mem_cons, not_or] at hx
    cases gs with
    | nil =>
      rw [Env.extendGroup]
      simp
    | cons g gs => rw [Env.extendGroup, ih hx.2, lookup?_extend, if_neg (Ne.symm hx.1)]

/-- A name of a group is bound to the generic type of the last function of this name. -/
theorem lookup?_extendGroup_of_mem {bs : List Binding} {x : String} (hx : x ∈ bs.map (·.name)) :
    ∃ (i : Nat) (b : Binding), bs[i]? = some b ∧ b.name = x ∧
      ∀ (env : Env) (gs : List Scheme), gs.length = bs.length →
        (env.extendGroup bs gs).lookup? x = gs[i]?.map some := by
  induction bs with
  | nil => cases hx
  | cons b bs ih =>
    by_cases hlater : x ∈ bs.map (·.name)
    · obtain ⟨i, c, hc, hname, hlookup⟩ := ih hlater
      refine ⟨i + 1, c, hc, hname, fun env gs hlen => ?_⟩
      cases gs with
      | nil => cases hlen
      | cons g gs => exact hlookup _ gs (Nat.succ.inj hlen)
    · have hname : b.name = x := by
        rcases List.mem_cons.mp hx with heq | hmem
        · exact heq.symm
        · exact absurd hmem hlater
      refine ⟨0, b, rfl, hname, fun env gs hlen => ?_⟩
      cases gs with
      | nil => cases hlen
      | cons g gs =>
        rw [Env.extendGroup, lookup?_extendGroup_of_not_mem hlater, lookup?_extend, if_pos hname]
        rfl

/-! ## Properties of all types -/

/-- All generic types of an environment have a property. -/
def All (P : Scheme → Prop) (env : Env) : Prop := ∀ x g, env.lookup? x = some (some g) → P g

namespace All

variable {P Q : Scheme → Prop} {env : Env}

theorem empty : All P .empty := by
  intro x g h
  rw [lookup?_empty] at h
  cases h

theorem imp (h : env.All P) (hi : ∀ g, P g → Q g) : env.All Q := fun x g hg => hi g (h x g hg)

theorem extend (h : env.All P) {x : String} {g : Scheme} (hg : P g) :
    (env.extend x (some g)).All P := by
  intro y g' hy
  rw [lookup?_extend] at hy
  split at hy
  · cases hy
    exact hg
  · exact h y g' hy

theorem declare (h : env.All P) {x : String} {t : Ty} (ht : P (.mono t)) :
    (env.declare x t).All P := h.extend ht

theorem extendGroup (h : env.All P) {bs : List Binding} {gs : List Scheme} (hg : ∀ g ∈ gs, P g) :
    (env.extendGroup bs gs).All P := by
  induction bs generalizing env gs with
  | nil =>
    rw [Env.extendGroup]
    · exact h
    · simp
  | cons b bs ih =>
    cases gs with
    | nil =>
      rw [Env.extendGroup]
      · exact h
      · simp
    | cons g gs =>
      rw [Env.extendGroup]
      exact ih (h.extend (hg g List.mem_cons_self)) fun g' hg' => hg g' (List.mem_cons_of_mem _ hg')

end All

/-! ## Relations between environments -/

/-- Two environments bind the same names, and their types are related for each name. -/
def Rel (S : String → Scheme → Scheme → Prop) (env env' : Env) : Prop :=
  ∀ x, Option.Rel (Option.Rel (S x)) (env.lookup? x) (env'.lookup? x)

namespace Rel

variable {S T : String → Scheme → Scheme → Prop} {env env' : Env}

/-- Extending both environments by related types; the relation may change with the name that is
bound. -/
theorem extend (h : env.Rel S env') {x : String} {g g' : Scheme} (hg : T x g g')
    (hT : ∀ y, y ≠ x → ∀ g g', S y g g' → T y g g') :
    (env.extend x (some g)).Rel T (env'.extend x (some g')) := by
  intro y
  rw [lookup?_extend, lookup?_extend]
  by_cases hxy : x = y
  · subst hxy
    rw [if_pos rfl, if_pos rfl]
    exact .some (.some hg)
  · rw [if_neg hxy, if_neg hxy]
    have hr := h y
    generalize env.lookup? y = r at hr
    generalize env'.lookup? y = r' at hr
    cases hr with
    | none => exact .none
    | some hr =>
      cases hr with
      | none => exact .some .none
      | some hs => exact .some (.some (hT y (Ne.symm hxy) _ _ hs))

theorem lookup (h : env.Rel S env') {x : String} {g : Scheme} (hx : env.lookup? x = some (some g)) :
    ∃ g', env'.lookup? x = some (some g') ∧ S x g g' := by
  have hr := h x
  rw [hx] at hr
  generalize env'.lookup? x = r at hr
  cases hr with
  | some hr =>
    cases hr with
    | some hs => exact ⟨_, rfl, hs⟩

theorem lookup_right (h : env.Rel S env') {x : String} {g' : Scheme}
    (hx : env'.lookup? x = some (some g')) : ∃ g, env.lookup? x = some (some g) ∧ S x g g' := by
  have hr := h x
  rw [hx] at hr
  generalize env.lookup? x = r at hr
  cases hr with
  | some hr =>
    cases hr with
    | some hs => exact ⟨_, rfl, hs⟩

theorem imp (h : env.Rel S env')
    (hi : ∀ x g g', env.lookup? x = some (some g) → S x g g' → T x g g') : env.Rel T env' := by
  intro x
  have hr := h x
  generalize hx : env.lookup? x = r at hr
  generalize env'.lookup? x = r' at hr
  cases hr with
  | none => exact .none
  | some hr =>
    cases hr with
    | none => exact .some .none
    | some hs => exact .some (.some (hi x _ _ hx hs))

end Rel

/-- Binding the functions of two groups of the same names to related types. -/
theorem Rel.extendGroup {R : Scheme → Scheme → Prop} {S : String → Scheme → Scheme → Prop}
    {env env' : Env} (h : env.Rel S env') {bs bs' : List Binding}
    (hn : bs'.map (·.name) = bs.map (·.name)) {gs gs' : List Scheme} (hg : List.Forall₂ R gs gs')
    (hR : ∀ b ∈ bs, ∀ g g', R g g' → S b.name g g') :
    (env.extendGroup bs gs).Rel S (env'.extendGroup bs' gs') := by
  induction hg generalizing env env' bs bs' with
  | nil =>
    rw [Env.extendGroup, Env.extendGroup]
    · exact h
    · simp
    · simp
  | cons hg _ ih =>
    cases bs with
    | nil =>
      cases bs' with
      | nil =>
        rw [Env.extendGroup, Env.extendGroup]
        · exact h
        · simp
        · simp
      | cons => simp at hn
    | cons b bs =>
      cases bs' with
      | nil => simp at hn
      | cons b' bs' =>
        rw [List.map_cons, List.map_cons, List.cons_eq_cons] at hn
        rw [List.forall_mem_cons] at hR
        rw [Env.extendGroup, Env.extendGroup, hn.1]
        exact ih (h.extend (hR.1 _ _ hg) fun _ _ _ _ hs => hs) hn.2 hR.2

/-! ## Relations on the names in use -/

/-- A name is not bound, or bound to a generic type without variables. -/
def ClosedAt (env : Env) (x : String) : Prop :=
  ∀ o, env.lookup? x = some o → ∃ g : Scheme, o = some g ∧ g.body.vars = []

/-- Two environments are related at the names `N`. The first of them mentions no variable at any other
name, unless they are related there. -/
def RelOn (N : String → Prop) (S : String → Scheme → Scheme → Prop) (env env' : Env) : Prop :=
  ∀ x, Option.Rel (Option.Rel (S x)) (env.lookup? x) (env'.lookup? x) ∨ ¬ N x ∧ env.ClosedAt x

theorem rel_self {S : Scheme → Scheme → Prop} (hS : ∀ g, S g g) (o : Option (Option Scheme)) :
    Option.Rel (Option.Rel S) o o := by
  cases o with
  | none => exact .none
  | some g =>
    cases g with
    | none => exact .some .none
    | some g => exact .some (.some (hS g))

namespace RelOn

variable {N N' : String → Prop} {S T : String → Scheme → Scheme → Prop} {env env' : Env}

theorem lookup_right (h : env.RelOn N S env') {x : String} (hx : N x) {g' : Scheme}
    (hg' : env'.lookup? x = some (some g')) : ∃ g, env.lookup? x = some (some g) ∧ S x g g' := by
  rcases h x with hr | ⟨hn, _⟩
  · rw [hg'] at hr
    generalize env.lookup? x = r at hr
    cases hr with
    | some hr =>
      cases hr with
      | some hs => exact ⟨_, rfl, hs⟩
  · exact absurd hx hn

/-- A variable of the first environment is one of a generic type that has a related one. -/
theorem lookup_vars (h : env.RelOn N S env') {x : String} {g : Scheme}
    (hg : env.lookup? x = some (some g)) {v : Int} (hv : v ∈ g.body.vars) :
    ∃ g', env'.lookup? x = some (some g') ∧ S x g g' := by
  rcases h x with hr | ⟨_, hc⟩
  · rw [hg] at hr
    generalize env'.lookup? x = r at hr
    cases hr with
    | some hr =>
      cases hr with
      | some hs => exact ⟨_, rfl, hs⟩
  · obtain ⟨_, ⟨⟩, hclosed⟩ := hc _ hg
    rw [hclosed] at hv
    cases hv

/-- Both environments bind some names anew, to related types. -/
theorem rebind (h : env.RelOn N S env') {env₁ env₁' : Env} (bound : List String)
    (hnew : ∀ x ∈ bound, ∃ g g', env₁.lookup? x = some (some g) ∧
      env₁'.lookup? x = some (some g') ∧ T x g g')
    (hold : ∀ x, x ∉ bound → env₁.lookup? x = env.lookup? x ∧ env₁'.lookup? x = env'.lookup? x)
    (hT : ∀ x, x ∉ bound → ∀ g g', S x g g' → T x g g') (hN : ∀ x, N' x → x ∉ bound → N x) :
    env₁.RelOn N' T env₁' := by
  intro x
  by_cases hx : x ∈ bound
  · obtain ⟨g, g', hg, hg', ht⟩ := hnew x hx
    rw [hg, hg']
    exact .inl (.some (.some ht))
  · unfold ClosedAt
    rw [(hold x hx).1, (hold x hx).2]
    rcases h x with hr | ⟨hn, hc⟩
    · left
      generalize env.lookup? x = r at hr
      generalize env'.lookup? x = r' at hr
      cases hr with
      | none => exact .none
      | some hr =>
        cases hr with
        | none => exact .some .none
        | some hs => exact .some (.some (hT x hx _ _ hs))
    · exact .inr ⟨fun hNx => hn (hN x hNx hx), hc⟩

theorem imp (h : env.RelOn N S env') (hT : ∀ x g g', S x g g' → T x g g') (hN : ∀ x, N' x → N x) :
    env.RelOn N' T env' := by
  refine h.rebind [] ?_ ?_ ?_ ?_
  · simp
  · simp
  · exact fun x _ => hT x
  · exact fun x hx _ => hN x hx

theorem extend (h : env.RelOn N S env') {x : String} {g g' : Scheme} (hg : T x g g')
    (hT : ∀ y, y ≠ x → ∀ g g', S y g g' → T y g g') (hN : ∀ y, N' y → y ≠ x → N y) :
    (env.extend x (some g)).RelOn N' T (env'.extend x (some g')) := by
  refine h.rebind [x] ?_ ?_ ?_ ?_
  · intro y hy
    obtain rfl := List.mem_singleton.mp hy
    exact ⟨g, g', by rw [lookup?_extend, if_pos rfl], by rw [lookup?_extend, if_pos rfl], hg⟩
  · intro y hy
    have hne : x ≠ y := fun heq => hy (List.mem_singleton.mpr heq.symm)
    rw [lookup?_extend, lookup?_extend, if_neg hne, if_neg hne]
    exact ⟨rfl, rfl⟩
  · exact fun y hy => hT y fun heq => hy (List.mem_singleton.mpr heq)
  · exact fun y hy hn => hN y hy fun heq => hn (List.mem_singleton.mpr heq)

theorem extendGroup (h : env.RelOn N S env') {R : Scheme → Scheme → Prop} {bs : List Binding}
    {gs gs' : List Scheme} (hg : List.Forall₂ R gs gs') (hlen : gs.length = bs.length)
    (hR : ∀ x ∈ bs.map (·.name), ∀ g g', R g g' → T x g g')
    (hT : ∀ x, x ∉ bs.map (·.name) → ∀ g g', S x g g' → T x g g')
    (hN : ∀ x, N' x → x ∉ bs.map (·.name) → N x) :
    (env.extendGroup bs gs).RelOn N' T (env'.extendGroup bs gs') := by
  refine h.rebind (bs.map (·.name)) (fun x hx => ?_) (fun x hx => ?_) hT hN
  · obtain ⟨i, b, hb, _, hlookup⟩ := lookup?_extendGroup_of_mem hx
    obtain ⟨hi, _⟩ := List.getElem?_eq_some_iff.mp hb
    have hi' : i < gs'.length := by rw [← hg.length_eq, hlen]; exact hi
    rw [← hlen] at hi
    refine ⟨gs[i], gs'[i], ?_, ?_, hR x hx _ _ (hg.get hi hi')⟩
    · rw [hlookup env gs hlen, List.getElem?_eq_getElem hi]
      rfl
    · rw [hlookup env' gs' (hg.length_eq.symm.trans hlen), List.getElem?_eq_getElem hi']
      rfl
  · exact ⟨lookup?_extendGroup_of_not_mem hx env gs, lookup?_extendGroup_of_not_mem hx env' gs'⟩

end RelOn

/-! ## Names without a type -/

/-- Every name that is bound has a type. -/
def Present (env : Env) : Prop := ∀ x, env.lookup? x ≠ some none

namespace Present

variable {env : Env}

theorem extend (h : env.Present) (x : String) (g : Scheme) : (env.extend x (some g)).Present := by
  intro y
  rw [lookup?_extend]
  split
  · simp
  · exact h y

theorem extendGroup (h : env.Present) (bs : List Binding) (gs : List Scheme) :
    (env.extendGroup bs gs).Present := by
  induction bs generalizing env gs with
  | nil =>
    rw [Env.extendGroup]
    · exact h
    · simp
  | cons b bs ih =>
    cases gs with
    | nil =>
      rw [Env.extendGroup]
      · exact h
      · simp
    | cons g gs => exact ih (h.extend b.name g) gs

theorem of_rel {env' : Env} {S : String → Scheme → Scheme → Prop} (h : env.Present)
    (hr : env.Rel S env') : env'.Present := by
  intro x hx
  have hrel := hr x
  rw [hx] at hrel
  cases hl : env.lookup? x with
  | none =>
    rw [hl] at hrel
    cases hrel
  | some o =>
    cases o with
    | none => exact h x hl
    | some g =>
      rw [hl] at hrel
      cases hrel with
      | some hrel => cases hrel

end Present

theorem closedAt_of_all {env : Env} (hp : env.Present) (hc : env.All fun g => g.body.vars = [])
    (x : String) : env.ClosedAt x := by
  intro o ho
  cases o with
  | none => exact absurd ho (hp x)
  | some g => exact ⟨g, rfl, hc x g ho⟩

/-! ## Variables -/

/-- The variables of the types of an environment, after each type has been changed. -/
def varsUnder (f : Ty → Ty) (env : Env) : List Int :=
  env.entries.flatMap fun (_, g) => (g.map fun g => (f g.body).vars).getD []

/-- The variables of the types of an environment. -/
def vars (env : Env) : List Int := env.varsUnder fun t => t

theorem mem_varsUnder {f : Ty → Ty} {env : Env} {v : Int} :
    v ∈ env.varsUnder f ↔ ∃ x g, env.lookup? x = some (some g) ∧ v ∈ (f g.body).vars := by
  rw [varsUnder, List.mem_flatMap]
  constructor
  · rintro ⟨⟨x, g⟩, hx, hv⟩
    cases g with
    | none => simp at hv
    | some g => exact ⟨x, g, mem_entries.mp hx, hv⟩
  · rintro ⟨x, g, hx, hv⟩
    exact ⟨(x, some g), mem_entries.mpr hx, hv⟩

theorem varsUnder_closed {env : Env} (h : env.All fun g => g.body.vars = []) (s : Store) :
    env.varsUnder s.resolve = [] := by
  refine List.eq_nil_iff_forall_not_mem.mpr fun v hv => ?_
  obtain ⟨x, g, hx, hv⟩ := mem_varsUnder.mp hv
  rw [Store.resolve_eq_subst, Ty.subst_closed (h x g hx), h x g hx] at hv
  cases hv

theorem mem_vars {env : Env} {v : Int} :
    v ∈ env.vars ↔ ∃ x g, env.lookup? x = some (some g) ∧ v ∈ g.body.vars := mem_varsUnder

end Env

end Polytype
