import Mathlib
import Polytype.Proofs.Graph.Classes
import Polytype.Proofs.Typing.Generality

/-!
# Splitting a group along its components

A group whose functions fall into several components can be written as nested groups, one for each
component (`Expr.splitGroup`). What is inferred for the nested groups is at least as general as what is
inferred for the one group (`inferGeneric_splitGroup`).

The functions keep their types. In the one group a function refers to the others at their types; in the
nested groups it refers to those of its own component in this way, and to those of earlier components at
their generic types, which have the types as instances (`Nested.covers`). It does not refer to those of
later components, because these come after it. The environment has no variables, and neither have the
generic types, so that a component is generalised as it was in the one group.
-/

namespace Polytype

/-! ## Members at places -/

/-- The members of a list at some places. -/
def pick {α : Type} (l : List α) (places : List Nat) : List α := places.filterMap (l[·]?)

section

variable {α β : Type} {l : List α} {places : List Nat}

theorem mem_pick {a : α} : a ∈ pick l places ↔ ∃ i ∈ places, l[i]? = some a := List.mem_filterMap

theorem map_pick (f : α → β) : (pick l places).map f = pick (l.map f) places := by
  simp [pick, List.map_filterMap]

theorem getElem?_pick (h : ∀ i ∈ places, i < l.length) (k : Nat) :
    (pick l places)[k]? = places[k]?.bind (l[·]?) := by
  induction places generalizing k with
  | nil => rfl
  | cons i places ih =>
    rw [List.forall_mem_cons] at h
    obtain ⟨a, ha⟩ : ∃ a, l[i]? = some a := ⟨_, List.getElem?_eq_getElem h.1⟩
    have hcons : pick l (i :: places) = a :: pick l places := List.filterMap_cons_some ha
    rw [hcons]
    cases k with
    | zero => exact ha.symm
    | succ k => exact ih h.2 k

theorem forall₂_getElem? {R : α → β → Prop} {m : List β} (h : List.Forall₂ R l m) {i : Nat} {a : α}
    {b : β} (ha : l[i]? = some a) (hb : m[i]? = some b) : R a b := by
  obtain ⟨hi, rfl⟩ := List.getElem?_eq_some_iff.mp ha
  obtain ⟨hi', rfl⟩ := List.getElem?_eq_some_iff.mp hb
  exact h.get hi hi'

theorem forall₂_pick {R : α → β → Prop} {m : List β} (hlen : l.length = m.length)
    (h : ∀ i ∈ places, ∀ a b, l[i]? = some a → m[i]? = some b → R a b) :
    List.Forall₂ R (pick l places) (pick m places) := by
  induction places with
  | nil => exact .nil
  | cons i places ih =>
    rw [List.forall_mem_cons] at h
    by_cases hi : i < l.length
    · have ha := List.getElem?_eq_getElem hi
      have hb := List.getElem?_eq_getElem (hlen ▸ hi : i < m.length)
      unfold pick
      rw [List.filterMap_cons_some ha, List.filterMap_cons_some hb]
      exact .cons (h.1 _ _ ha hb) (ih h.2)
    · have ha := List.getElem?_eq_none (Nat.le_of_not_lt hi)
      have hb := List.getElem?_eq_none (hlen ▸ Nat.le_of_not_lt hi : m.length ≤ i)
      unfold pick
      rw [List.filterMap_cons_none ha, List.filterMap_cons_none hb]
      exact ih h.2

end

/-- A group as nested groups, one for each of its components. -/
def Expr.splitGroup (bs : List Binding) (body : Expr) : Expr :=
  (Binding.classes bs).foldr (fun c inner => .group (pick bs c) inner .absent) body

/-! ## Derivations -/

theorem hasBindings_iff {Γ : Env} {bs : List Binding} {ts : List Ty} :
    HasBindings Γ bs ts ↔
      List.Forall₂ (fun b t => ∃ f, b.func? = some f ∧ HasType Γ f t) bs ts := by
  induction bs generalizing ts with
  | nil =>
    constructor
    · rintro ⟨⟩
      exact .nil
    · rintro ⟨⟩
      exact .nil
  | cons b bs ih =>
    constructor
    · rintro (_ | ⟨hf, h, hrest⟩)
      exact .cons ⟨_, hf, h⟩ (ih.mp hrest)
    · rintro (_ | ⟨⟨f, hf, h⟩, hrest⟩)
      exact .cons hf h (ih.mpr hrest)

/-- The places of a group with different names are determined by the names. -/
theorem place_unique {bs : List Binding} (hdup : (bs.map (·.name)).Nodup) {i j : Nat}
    {b c : Binding} (hb : bs[i]? = some b) (hc : bs[j]? = some c) (hname : b.name = c.name) :
    i = j := by
  have hi : i < (bs.map (·.name)).length := by
    rw [List.length_map]
    exact (List.getElem?_eq_some_iff.mp hb).1
  refine (List.getElem?_inj hi hdup).mp ?_
  rw [List.getElem?_map, List.getElem?_map, hb, hc, Option.map_some, Option.map_some, hname]

section

variable {bs : List Binding} {gs : List Scheme} {places : List Nat}

theorem mem_names_of_pick {x : String} (hx : x ∈ (pick bs places).map (·.name)) :
    x ∈ bs.map (·.name) := by
  obtain ⟨b, hb, rfl⟩ := List.mem_map.mp hx
  obtain ⟨i, _, hb⟩ := mem_pick.mp hb
  exact List.mem_map_of_mem (List.mem_of_getElem? hb)

theorem not_mem_names_pick (hdup : (bs.map (·.name)).Nodup) {i : Nat} (hi : i ∉ places)
    {b : Binding} (hb : bs[i]? = some b) : b.name ∉ (pick bs places).map (·.name) := by
  rw [List.mem_map]
  rintro ⟨c, hc, hname⟩
  obtain ⟨j, hj, hc⟩ := mem_pick.mp hc
  exact hi (place_unique hdup hc hb hname ▸ hj)

/-- A function of a component is bound to its generic type. -/
theorem lookup?_extendGroup_pick (hdup : (bs.map (·.name)).Nodup) (hlen : gs.length = bs.length)
    (hplaces : ∀ i ∈ places, i < bs.length) (Δ : Env) {i : Nat} (hi : i ∈ places) {b : Binding}
    (hb : bs[i]? = some b) :
    (Δ.extendGroup (pick bs places) (pick gs places)).lookup? b.name = gs[i]?.map some := by
  have hmem : b.name ∈ (pick bs places).map (·.name) :=
    List.mem_map_of_mem (mem_pick.mpr ⟨i, hi, hb⟩)
  have hplaces' : ∀ i ∈ places, i < gs.length := hlen ▸ hplaces
  have hpicked : (pick gs places).length = (pick bs places).length :=
    (forall₂_pick hlen fun _ _ _ _ _ _ => trivial : List.Forall₂ (fun _ _ => True) _ _).length_eq
  obtain ⟨k, c, hc, hname, hlookup⟩ := Env.lookup?_extendGroup_of_mem hmem
  rw [getElem?_pick hplaces] at hc
  obtain ⟨j, hj, hc⟩ := Option.bind_eq_some_iff.mp hc
  obtain rfl := place_unique hdup hc hb hname
  rw [hlookup Δ _ hpicked, getElem?_pick hplaces', hj, Option.bind_some]

theorem lookup?_extendGroup (hdup : (bs.map (·.name)).Nodup) (hlen : gs.length = bs.length) (Γ : Env)
    {i : Nat} {b : Binding} (hb : bs[i]? = some b) :
    (Γ.extendGroup bs gs).lookup? b.name = gs[i]?.map some := by
  have hmem : b.name ∈ bs.map (·.name) := List.mem_map_of_mem (List.mem_of_getElem? hb)
  obtain ⟨j, c, hc, hname, hlookup⟩ := Env.lookup?_extendGroup_of_mem hmem
  obtain rfl := place_unique hdup hc hb hname
  exact hlookup Γ gs hlen

end

/-- The functions of a group with their types, in an environment without variables. -/
structure TypedGroup (Γ : Env) (bs : List Binding) (ts : List Ty) (gs : List Scheme) : Prop where
  present : Γ.Present
  closed : Γ.All fun g => g.body.vars = []
  names : (bs.map (·.name)).Nodup
  schemes : ∀ b ∈ bs, b.scheme = none
  noArgs : ∀ b ∈ bs, ∀ f, b.func? = some f → f.NoArgsAt (· ∈ bs.map (·.name))
  typed : HasBindings (Γ.extendGroup bs (ts.map .mono)) bs ts
  generalized : List.Forall₂ (Generalizes Γ) ts gs

/-- The environment inside the nested groups of some components: the functions of these are bound to
their generic types, and all other names as outside. -/
structure Nested (Γ : Env) (bs : List Binding) (gs : List Scheme) (before : List (List Nat))
    (Δ : Env) : Prop where
  bound : ∀ c ∈ before, ∀ i ∈ c, ∀ b, bs[i]? = some b → Δ.lookup? b.name = gs[i]?.map some
  others : ∀ x, (∀ c ∈ before, ∀ i ∈ c, ∀ b, bs[i]? = some b → b.name ≠ x) →
    Δ.lookup? x = Γ.lookup? x

section

variable {Γ Δ : Env} {bs : List Binding} {ts : List Ty} {gs : List Scheme}
  {before after : List (List Nat)} {c : List Nat}

namespace TypedGroup

theorem length_types (h : TypedGroup Γ bs ts gs) : ts.length = bs.length := h.typed.length

theorem length_generics (h : TypedGroup Γ bs ts gs) : gs.length = bs.length :=
  h.generalized.length_eq.symm.trans h.length_types

theorem exists_generic (h : TypedGroup Γ bs ts gs) {i : Nat} {b : Binding} (hb : bs[i]? = some b) :
    ∃ t g, ts[i]? = some t ∧ gs[i]? = some g ∧ Generalizes Γ t g := by
  have hi := (List.getElem?_eq_some_iff.mp hb).1
  have ht := List.getElem?_eq_getElem (h.length_types ▸ hi : i < ts.length)
  have hg := List.getElem?_eq_getElem (h.length_generics ▸ hi : i < gs.length)
  exact ⟨_, _, ht, hg, forall₂_getElem? h.generalized ht hg⟩

theorem not_mem_vars (h : TypedGroup Γ bs ts gs) (v : Int) : v ∉ Γ.vars := by
  intro hv
  obtain ⟨x, g, hx, hv⟩ := Env.mem_vars.mp hv
  rw [h.closed x g hx] at hv
  cases hv

end TypedGroup

namespace Nested

theorem of_not_mem (h : Nested Γ bs gs before Δ) {x : String} (hx : x ∉ bs.map (·.name)) :
    Δ.lookup? x = Γ.lookup? x := by
  refine h.others x fun c _ i _ b hb hname => hx ?_
  exact List.mem_map.mpr ⟨b, List.mem_of_getElem? hb, hname⟩

/-- One component more. -/
theorem step (h : Nested Γ bs gs before Δ) (hT : TypedGroup Γ bs ts gs)
    (hc : ∀ i ∈ c, i < bs.length) :
    Nested Γ bs gs (before ++ [c]) (Δ.extendGroup (pick bs c) (pick gs c)) := by
  constructor
  · intro d hd i hi b hb
    by_cases hic : i ∈ c
    · exact lookup?_extendGroup_pick hT.names hT.length_generics hc Δ hic hb
    · rw [Env.lookup?_extendGroup_of_not_mem (not_mem_names_pick hT.names hic hb)]
      rcases List.mem_append.mp hd with hd | hd
      · exact h.bound d hd i hi b hb
      · exact absurd (List.mem_singleton.mp hd ▸ hi) hic
  · intro x hx
    rw [Env.lookup?_extendGroup_of_not_mem, h.others x]
    · exact fun d hd => hx d (List.mem_append_left _ hd)
    · rw [List.mem_map]
      rintro ⟨b, hb, hname⟩
      obtain ⟨i, hi, hb⟩ := mem_pick.mp hb
      exact hx c (List.mem_append_right _ List.mem_cons_self) i hi b hb hname

theorem closedAt (h : Nested Γ bs gs before Δ) (hT : TypedGroup Γ bs ts gs) (x : String) :
    Δ.ClosedAt x := by
  intro o ho
  by_cases hx : ∃ c ∈ before, ∃ i ∈ c, ∃ b, bs[i]? = some b ∧ b.name = x
  · obtain ⟨c, hc, i, hi, b, hb, rfl⟩ := hx
    obtain ⟨t, g, _, hg, hgen⟩ := hT.exists_generic hb
    rw [h.bound c hc i hi b hb, hg] at ho
    refine ⟨g, (Option.some.inj ho).symm, List.eq_nil_iff_forall_not_mem.mpr fun v hv => ?_⟩
    exact hT.not_mem_vars v (hgen.mem_vars hv)
  · rw [h.others x fun c hc i hi b hb hname => hx ⟨c, hc, i, hi, b, hb, hname⟩] at ho
    exact Env.closedAt_of_all hT.present hT.closed x o ho

/-- A type is generalised as it was outside. -/
theorem generalizes (h : Nested Γ bs gs before Δ) (hT : TypedGroup Γ bs ts gs) {t : Ty} {g : Scheme}
    (hg : Generalizes Γ t g) : Generalizes Δ t g := by
  have hvars : ∀ v, v ∈ Γ.vars ↔ v ∈ Δ.vars := by
    intro v
    refine ⟨fun hv => absurd hv (hT.not_mem_vars v), fun hv => ?_⟩
    obtain ⟨x, g, hx, hv⟩ := Env.mem_vars.mp hv
    obtain ⟨_, ⟨⟩, hclosed⟩ := h.closedAt hT x _ hx
    rw [hclosed] at hv
    cases hv
  obtain ⟨hlen, hdup, hnew, hbody⟩ := hg
  rw [firstsNotIn_congr hvars] at hlen hbody
  exact ⟨hlen, hdup, hnew, hbody⟩

/-- Inside its component a function is typed in an environment that covers that of the one group. -/
theorem covers (h : Nested Γ bs gs before Δ) (hT : TypedGroup Γ bs ts gs)
    (hsplit : Binding.classes bs = before ++ c :: after) {i : Nat} (hi : i ∈ c) {b : Binding}
    (hb : bs[i]? = some b) {f : Expr} (hf : b.func? = some f) :
    (Δ.extendGroup (pick bs c) ((pick ts c).map .mono)).Covers (· ∈ f.free)
      (· ∈ bs.map (·.name)) (Γ.extendGroup bs (ts.map .mono)) := by
  have hc : ∀ i ∈ c, i < bs.length := Binding.classes_lt c (by simp [hsplit])
  have hmono : (ts.map Scheme.mono).length = bs.length := by rw [List.length_map, hT.length_types]
  intro x
  by_cases hx : x ∈ bs.map (·.name)
  · obtain ⟨b', hb', rfl⟩ := List.mem_map.mp hx
    obtain ⟨j, hj⟩ := List.mem_iff_getElem?.mp hb'
    obtain ⟨u, g, hu, hg, hgen⟩ := hT.exists_generic hj
    rw [lookup?_extendGroup hT.names hmono Γ hj, List.getElem?_map, hu]
    by_cases hjc : j ∈ c
    · -- in the component: at its type, as in the one group
      rw [map_pick, lookup?_extendGroup_pick hT.names hmono hc Δ hjc hj, List.getElem?_map, hu]
      exact .inl (Env.rel_self (Fits.refl _ _) _)
    · unfold Env.ClosedAt
      rw [Env.lookup?_extendGroup_of_not_mem (not_mem_names_pick hT.names hjc hj)]
      by_cases hdone : ∃ d ∈ before, j ∈ d
      · -- in an earlier component: at its generic type
        obtain ⟨d, hd, hjd⟩ := hdone
        rw [h.bound d hd j hjd b' hj, hg]
        exact .inl (.some (.some ⟨hgen.atLeast_mono, fun hn => absurd hx hn⟩))
      · -- in a later component: not mentioned
        refine .inr ⟨fun hfree => ?_, h.closedAt hT b'.name⟩
        have hedge := Binding.mem_next_graph hT.names hb hj (Expr.mem_freeBinding.mpr ⟨f, hf, hfree⟩)
        obtain ⟨d, hd, hjd⟩ := (Binding.classes_spec bs).2.1.before before c after hsplit i hi j hedge
        rcases List.mem_append.mp hd with hd | hd
        · exact hdone ⟨d, hd, hjd⟩
        · exact hjc (List.mem_singleton.mp hd ▸ hjd)
  · rw [Env.lookup?_extendGroup_of_not_mem fun hm => hx (mem_names_of_pick hm),
      Env.lookup?_extendGroup_of_not_mem hx, h.of_not_mem hx]
    exact .inl (Env.rel_self (Fits.refl _ _) _)

/-- With all components bound, the environment covers that of the body. -/
theorem covers_body (h : Nested Γ bs gs (Binding.classes bs) Δ) (hT : TypedGroup Γ bs ts gs)
    (N G : String → Prop) : Δ.Covers N G (Γ.extendGroup bs gs) := by
  intro x
  by_cases hx : x ∈ bs.map (·.name)
  · obtain ⟨b, hb, rfl⟩ := List.mem_map.mp hx
    obtain ⟨i, hi⟩ := List.mem_iff_getElem?.mp hb
    obtain ⟨c, hc, hic⟩ := Binding.exists_class (List.getElem?_eq_some_iff.mp hi).1
    rw [lookup?_extendGroup hT.names hT.length_generics Γ hi, h.bound c hc i hic b hi]
    exact .inl (Env.rel_self (Fits.refl _ _) _)
  · rw [Env.lookup?_extendGroup_of_not_mem hx, h.of_not_mem hx]
    exact .inl (Env.rel_self (Fits.refl _ _) _)

/-- The nested groups of the components that are left have the type of the body. -/
theorem hasType (h : Nested Γ bs gs before Δ) (hT : TypedGroup Γ bs ts gs)
    (hsplit : Binding.classes bs = before ++ after) {body : Expr} {t : Ty}
    (hG : body.NoArgsAt (· ∈ bs.map (·.name))) (hbody : HasType (Γ.extendGroup bs gs) body t) :
    HasType Δ (after.foldr (fun c inner => .group (pick bs c) inner .absent) body) t := by
  induction after generalizing before Δ with
  | nil =>
    rw [List.append_nil] at hsplit
    exact HasType.weaken body hG ((hsplit ▸ h).covers_body hT _ _) hbody
  | cons c after ih =>
    have hc : ∀ i ∈ c, i < bs.length := Binding.classes_lt c (by simp [hsplit])
    have hfs : HasBindings (Δ.extendGroup (pick bs c) ((pick ts c).map .mono)) (pick bs c)
        (pick ts c) := by
      refine hasBindings_iff.mpr (forall₂_pick hT.length_types.symm fun i hi b u hb hu => ?_)
      obtain ⟨f, hf, hft⟩ := forall₂_getElem? (hasBindings_iff.mp hT.typed) hb hu
      have hnone := hT.noArgs b (List.mem_of_getElem? hb) f hf
      exact ⟨f, hf, HasType.weaken f hnone (h.covers hT hsplit hi hb hf) hft⟩
    have hgen : List.Forall₂ (Generalizes Δ) (pick ts c) (pick gs c) := by
      refine forall₂_pick hT.generalized.length_eq fun i _ u g hu hg => ?_
      exact h.generalizes hT (forall₂_getElem? hT.generalized hu hg)
    refine .group (fun b hb => ?_) hfs hgen (ih (h.step hT hc) (by simp [hsplit]))
    obtain ⟨i, _, hb⟩ := mem_pick.mp hb
    exact hT.schemes b (List.mem_of_getElem? hb)

end Nested

end

/-- In an environment without variables, the nested groups have every type of the one group. -/
theorem hasType_splitGroup {Γ : Env} {bs : List Binding} {body : Expr} {ty t : Ty}
    (hpres : Γ.Present) (hclosed : Γ.All fun g => g.body.vars = [])
    (hnames : (bs.map (·.name)).Nodup) (hG : (Expr.group bs body ty).NoArgsAt fun _ => False)
    (h : HasType Γ (.group bs body ty) t) : HasType Γ (.splitGroup bs body) t := by
  simp only [Expr.NoArgsAt, false_or] at hG
  obtain ⟨hfuncs, hbody⟩ := hG
  cases h with
  | @group _ _ ts gs _ _ _ hnone hfs hgen hb =>
    have hT : TypedGroup Γ bs ts gs :=
      ⟨hpres, hclosed, hnames, hnone, Expr.noArgsAtBindings_iff.mp hfuncs, hfs, hgen⟩
    have hstart : Nested Γ bs gs [] Γ := ⟨by simp, fun _ _ => rfl⟩
    exact hstart.hasType hT rfl hbody hb

/-! ## The nested groups as a program -/

namespace Expr

/-- Fewer names leave fewer places without type arguments. -/
theorem NoArgsAt.mono (e : Expr) :
    ∀ {G G' : String → Prop}, (∀ x, G' x → G x) → e.NoArgsAt G → e.NoArgsAt G' := by
  induction e with
  | absent => exact fun _ h => h
  | other kind => exact fun _ h => h
  | int value ty => exact fun _ h => h
  | str value ty => exact fun _ h => h
  | var name typeArgs ty => exact fun hG h hx => h (hG name hx)
  | func params result body ty ih => exact fun hG h => ih (fun x hx => ⟨hG x hx.1, hx.2⟩) h
  | call callee args ty ihf iha =>
    intro G G' hG h
    rw [NoArgsAt, noArgsAtList_iff] at h ⊢
    exact ⟨ihf hG h.1, fun a ha => iha a ha hG (h.2 a ha)⟩
  | letIn name annot value body ty ihv ihb =>
    intro G G' hG h
    rw [NoArgsAt] at h ⊢
    exact ⟨ihv hG h.1, ihb (fun x hx => ⟨hG x hx.1, hx.2⟩) h.2⟩
  | group bs body ty ihf ihb =>
    intro G G' hG h
    rw [NoArgsAt, noArgsAtBindings_iff] at h ⊢
    have hG' : ∀ x, G' x ∨ x ∈ bs.map (·.name) → G x ∨ x ∈ bs.map (·.name) := fun x hx =>
      hx.imp_left (hG x)
    exact ⟨fun b hb f hf => ihf b hb f hf hG' (h.1 b hb f hf), ihb hG' h.2⟩
  | array item items ty ih =>
    intro G G' hG h
    rw [NoArgsAt, noArgsAtList_iff] at h ⊢
    exact fun e he => ih e he hG (h e he)
  | seq effect value ty ihe ihv =>
    intro G G' hG h
    rw [NoArgsAt] at h ⊢
    exact ⟨ihe hG h.1, ihv hG h.2⟩
  | block items ty ih =>
    intro G G' hG h
    rw [NoArgsAt] at h ⊢
    induction items generalizing G G' with
    | nil => exact h
    | cons e es ihs =>
      rw [List.forall_mem_cons] at ih
      rw [NoArgsAtItems] at h ⊢
      exact ⟨ih.1 hG h.1, ihs ih.2 (fun x hx => ⟨hG x hx.1, hx.2⟩) h.2⟩

section

variable {bs : List Binding} {body : Expr} {ty : Ty}

/-- A property of all nodes of the one group is one of all nodes of the nested groups, if it holds of
the nested groups themselves. -/
theorem every_splitGroup {P : Expr → Prop} (h : (group bs body ty).Every P)
    (hnode : ∀ places inner, P (.group (pick bs places) inner .absent)) :
    (splitGroup bs body).Every P := by
  obtain ⟨_, hfuncs, hbody⟩ := every_group.mp h
  unfold splitGroup
  induction Binding.classes bs with
  | nil => exact hbody
  | cons c cs ih =>
    refine every_group.mpr ⟨hnode c _, fun b hb => ?_, ih⟩
    obtain ⟨i, _, hb⟩ := mem_pick.mp hb
    exact hfuncs b (List.mem_of_getElem? hb)

theorem noArgsAt_splitGroup (h : (group bs body ty).NoArgsAt fun _ => False) :
    (splitGroup bs body).NoArgsAt fun _ => False := by
  simp only [NoArgsAt, false_or] at h
  obtain ⟨hfuncs, hbody⟩ := h
  rw [noArgsAtBindings_iff] at hfuncs
  have hnested : ∀ (cs : List (List Nat)) (G : String → Prop), (∀ x, G x → x ∈ bs.map (·.name)) →
      NoArgsAt G (cs.foldr (fun c inner => .group (pick bs c) inner .absent) body) := by
    intro cs
    induction cs with
    | nil => exact fun G hG => NoArgsAt.mono body hG hbody
    | cons c cs ih =>
      intro G hG
      have hnames : ∀ x, G x ∨ x ∈ (pick bs c).map (·.name) → x ∈ bs.map (·.name) := by
        rintro x (hx | hx)
        · exact hG x hx
        · exact mem_names_of_pick hx
      rw [List.foldr_cons, NoArgsAt, noArgsAtBindings_iff]
      refine ⟨fun b hb f hf => ?_, ih _ hnames⟩
      obtain ⟨i, _, hb⟩ := mem_pick.mp hb
      exact NoArgsAt.mono f hnames (hfuncs b (List.mem_of_getElem? hb) f hf)
  exact hnested _ _ fun x hx => hx.elim

theorem plain_splitGroup {V : Vocabulary} (h : (group bs body ty).Plain V) :
    (splitGroup bs body).Plain V := by
  refine every_splitGroup h fun places inner => ?_
  have hnone := scheme_eq_none (every_group.mp h).1.2
  have hgenerics : (group (pick bs places) inner .absent).generics = [] := by
    rw [generics, List.filterMap_eq_nil_iff]
    intro b hb
    obtain ⟨i, _, hb⟩ := mem_pick.mp hb
    exact hnone b (List.mem_of_getElem? hb)
  refine ⟨⟨by simp [annotations], by simp [typeArguments], fun g hg => ?_⟩, hgenerics⟩
  rw [hgenerics] at hg
  cases hg

end

end Expr

/-! ## Instances of what is inferred -/

section

variable {env : Env} {e : Expr} {g : Scheme}

/-- The type under a solution is an instance of the generic type that it is closed to. -/
theorem Closes.isInstance {s : Store} {t : Ty} {scope : Expr} {store? : Option Store}
    (h : Closes s env t scope g store?) (hclosed : env.All fun g => g.body.vars = [])
    (ht : ∀ v ∈ (s.resolve t).vars, s.owns v = true) {σ : Int → Ty} (hσ : s.SolvedBy σ) :
    g.IsInstance (t.subst σ) := by
  have hlen : ((s.generalizable env t).map σ).length = g.params.length := by
    rw [List.length_map, h.length]
  refine ⟨_, hlen, ?_⟩
  rw [← Scheme.applyUnder_eq_apply fun _ _ => rfl, h.applyUnder hlen, ← Store.subst_resolve hσ t]
  refine Ty.subst_congr fun u hu => assign_map (Store.mem_generalizable.mpr ⟨⟨hu, ht u hu⟩, ?_⟩)
  intro hk
  obtain ⟨x, g', hx, hk⟩ := Env.mem_varsUnder.mp hk
  rw [Store.resolve_eq_subst, Ty.subst_closed (hclosed x g' hx), hclosed x g' hx] at hk
  cases hk

/-- Every instance of what is inferred is a derivable type. -/
theorem hasType_of_isInstance (hclosed : env.All fun g => g.body.vars = []) (hpl : e.Plain .all)
    (h : (Context.new.inferGeneric e (some env)).1.result = .ok g) {t : Ty} (ht : g.IsInstance t) :
    HasType env e t := by
  obtain ⟨_, typed, u, run, store?, hroot, hc⟩ := inferGeneric_result.mp h
  have hover : env.Over .all 0 := hclosed.imp fun g hg => ⟨fun h => absurd trivial h, by simp [hg],
    fun _ _ => .inl trivial⟩
  obtain ⟨typed, run₁, hrun, heq⟩ := root_run hroot hover hpl.over
  obtain ⟨_, rfl⟩ := Prod.mk.inj heq
  have hs := hrun.settled.wf.acyclic
  obtain ⟨args, hlen, rfl⟩ := ht
  rw [← Scheme.applyUnder_eq_apply fun _ _ => rfl, (closing_closes hs hc).applyUnder hlen,
    Store.resolve_resolve hs]
  -- whatever the variables stand for, resolution makes it a solution
  have hσ : ∀ ρ : Int → Ty, run₁.SolvedBy fun i => (run.store.resolve (.var i)).subst ρ := fun ρ =>
    (hrun.solved _).mp ⟨Store.solvedBy_resolve hs ρ, by simp [hrun.empty]⟩
  exact infer_sound e hrun.inferred hrun.opened hrun.scope hrun.expected hpl (hσ _)
    (Env.under_closed hclosed _)

/-- A derivable type is an instance of what is inferred. -/
theorem isInstance_of_hasType (hpres : env.Present) (hscope : env.Over .whole 0)
    (hclosed : env.All fun g => g.body.vars = []) (hpl : e.Plain .whole)
    (hnone : e.NoArgsAt fun _ => False) {t : Ty} (h : HasType env e t) :
    ∃ g, (Context.new.inferGeneric e (some env)).1.result = .ok g ∧ g.IsInstance t := by
  obtain ⟨typed, u, run, σ, hrun, hwf, hu, hσ, rfl⟩ :=
    inferRoot_complete hscope hclosed hpres hpl hnone h
  obtain ⟨⟨g, store?⟩, hc⟩ := (@closing_isOk run.store env u .absent).mpr (.inr hpres)
  refine ⟨g, inferGeneric_result.mpr ⟨h.isAbsent, typed, u, run, store?, hrun, hc⟩, ?_⟩
  exact (closing_closes hwf.acyclic hc).isInstance hclosed (hwf.owns_resolve not_false hu) hσ.store

end

/-- Splitting a group along its components is safe: if a generic type is inferred for a group of
functions with different names, then one is inferred for the nested groups, and it has at least the same
instances. The environment and the program have no variables, no type of theirs has a missing part, there
are no generic annotations, and no type arguments are given to the functions of groups. -/
theorem inferGeneric_splitGroup {env : Env} {bs : List Binding} {body : Expr} {ty : Ty} {g : Scheme}
    (hpres : env.Present) (henv : env.All fun g => g.body.vars = [] ∧ g.body.Whole)
    (hnames : (bs.map (·.name)).Nodup)
    (hgroups : (Expr.group bs body ty).Every fun n => n.generics = [])
    (hannot : (Expr.group bs body ty).Every fun n =>
      ∀ u ∈ n.annotations, u ≠ .absent → u.vars = [] ∧ u.Whole)
    (hgiven : (Expr.group bs body ty).Every fun n =>
      ∀ u ∈ n.typeArguments, u.vars = [] ∧ u.Whole)
    (hnone : (Expr.group bs body ty).NoArgsAt fun _ => False)
    (h : (Context.new.inferGeneric (.group bs body ty) (some env)).1.result = .ok g) :
    Binding.components bs = .ok (Binding.classes bs) ∧
      ∃ g', (Context.new.inferGeneric (.splitGroup bs body) (some env)).1.result = .ok g' ∧
        ∀ t, g.IsInstance t → g'.IsInstance t := by
  have hplain : ∀ V : Vocabulary, (∀ u : Ty, u.vars = [] ∧ u.Whole → u.Over V 0) →
      (Expr.group bs body ty).Plain V := by
    intro V hV n hn
    refine ⟨⟨fun u hu hne => hV u (hannot n hn u hu hne), fun u hu => hV u (hgiven n hn u hu),
      fun g hg => ?_⟩, hgroups n hn⟩
    rw [hgroups n hn] at hg
    cases hg
  have hall := hplain .all fun u hu => .of_closed hu.1
  have hwhole := hplain .whole fun u hu => ⟨fun _ => hu.2, by simp [hu.1], fun _ _ => trivial⟩
  have hclosed : env.All fun g => g.body.vars = [] := henv.imp fun g hg => hg.1
  have hscope : env.Over .whole 0 := henv.imp fun g hg => ⟨fun _ => hg.2, by simp [hg.1],
    fun _ _ => .inl trivial⟩
  have hinstance : ∀ t, g.IsInstance t → ∃ g',
      (Context.new.inferGeneric (.splitGroup bs body) (some env)).1.result = .ok g' ∧
        g'.IsInstance t := by
    intro t ht
    have hgroup := hasType_of_isInstance hclosed hall h ht
    exact isInstance_of_hasType hpres hscope hclosed (Expr.plain_splitGroup hwhole)
      (Expr.noArgsAt_splitGroup hnone) (hasType_splitGroup hpres hclosed hnames hnone hgroup)
  -- the result is the same for all instances, of which there is at least one
  obtain ⟨g', hg', _⟩ := hinstance _ ⟨g.params.map fun _ => .int, List.length_map _, rfl⟩
  refine ⟨(Binding.classes_spec bs).1, g', hg', fun t ht => ?_⟩
  obtain ⟨g'', hg'', ht'⟩ := hinstance t ht
  rw [hg'] at hg''
  exact Except.ok.inj hg'' ▸ ht'

/-- A function that is used at one type by another one of its group, and found to be more general when
it is in a group of its own. -/
theorem inferGeneric_splitGroup_identity :
    let env := Env.empty.declareGeneric "id" ["T"] (.function [.con "T" []] (.con "T" []))
    let f := Binding.fn "f" none [⟨"x", .absent⟩] .absent
      (.call (.var "id" none .absent) [.var "x" none .absent] .absent) .absent
    let g := Binding.fn "g" none [] .absent
      (.call (.var "f" none .absent) [.int 1 .absent] .absent) .absent
    let body := Expr.var "f" none .absent
    Expr.splitGroup [g, f] body = .group [f] (.group [g] body .absent) .absent ∧
      (Context.new.inferGeneric (.group [g, f] body .absent) (some env)).1.result =
        .ok (.mono (.function [.int] .int)) ∧
      Binding.components [g, f] = .ok (Binding.classes [g, f]) ∧
      ∃ g', (Context.new.inferGeneric (.splitGroup [g, f] body) (some env)).1.result = .ok g' ∧
        ∀ t, (Scheme.mono (.function [.int] .int)).IsInstance t → g'.IsInstance t := by
  intro env f g body
  have h : (Context.new.inferGeneric (.group [g, f] body .absent) (some env)).1.result =
      .ok (.mono (.function [.int] .int)) := by decide +kernel
  refine ⟨by cbv, h, inferGeneric_splitGroup (Env.Present.extend (fun x => by simp) _ _)
    (Env.All.empty.extend ⟨by rfl, by simp [Ty.function]⟩) (by decide) ?_ ?_ ?_ ?_ h⟩
  · simp [f, g, body, Expr.generics, Binding.func?, Binding.scheme]
  · simp [f, g, body, Expr.annotations, Binding.func?]
  · simp [f, g, body, Expr.typeArguments, Binding.func?]
  · simp [f, g, body, Expr.NoArgsAt, Expr.NoArgsAtList, Expr.NoArgsAtBindings, Expr.NoArgsAtBinding,
      Binding.name]

/-- A generic type is inferred for a group, and none for the nested groups. -/
def SplitFails (env : Env) (bs : List Binding) (body : Expr) (g : Scheme) (trouble : Trouble) : Prop :=
  (Context.new.inferGeneric (.group bs body .absent) (some env)).1.result = .ok g ∧
    (Context.new.inferGeneric (.splitGroup bs body) (some env)).1.result = .error trouble

/-- A group with these components cannot be split if no type is inferred for the groups made of them. -/
theorem SplitFails.of_components {env : Env} {bs : List Binding} {body : Expr} {g : Scheme}
    {trouble : Trouble} (cs : List (List Nat)) (hcs : Binding.classes bs = cs)
    (hg : (Context.new.inferGeneric (.group bs body .absent) (some env)).1.result = .ok g)
    (ht : (Context.new.inferGeneric (cs.foldr (fun c inner => .group (pick bs c) inner .absent) body)
      (some env)).1.result = .error trouble) : SplitFails env bs body g trouble := by
  subst hcs
  exact ⟨hg, ht⟩

/-- Not every group can be split. Inside its group a function has no parameters and may be given an empty
list of type arguments, and in the body it may be given as many as other functions of the group leave it;
a missing type is not equal to itself, but one that comes late is never compared; a group in which nothing
becomes a parameter is not closed over a name without a type; and a variable in a type argument is
whichever the store has under its number. -/
theorem exists_group_and_no_split :
    let a := Ty.absent
    let f := Binding.fn "f" none [⟨"x", a⟩] a (.var "x" none a) a
    let twice := Binding.fn "g" none [⟨"z", a⟩] a (.array a
      [.call (.var "f" none a) [.var "z" none a] a, .call (.var "f" none a) [.var "z" none a] a] a) a
    SplitFails .empty
        [f, .fn "g" none [⟨"y", a⟩] a (.call (.var "f" (some []) a) [.var "y" none a] a) a]
        (.int 1 a) (.mono .int) (.error (.arity "f" 1 0)) ∧
      SplitFails .empty
        [.fn "f" none [⟨"x", a⟩, ⟨"y", a⟩] a (.var "x" none a) a,
          .fn "g" none [⟨"z", a⟩] a (.call (.var "f" none a) [.var "z" none a, .int 1 a] a) a]
        (.var "f" (some [.string]) a) (.mono (.function [.string, .int] .string))
        (.error (.arity "f" 2 1)) ∧
      SplitFails (Env.empty.declare "x" a) [twice, .fn "f" none [⟨"y", a⟩] a (.var "x" none a) a]
        (.int 1 a) (.mono .int) (.error (.unify (.mismatch a a))) ∧
      SplitFails .empty [twice, .fn "f" none [⟨"y", .array a⟩] a (.int 1 a) a]
        (.int 1 a) (.mono .int) (.error (.unify (.mismatch a a))) ∧
      SplitFails (Env.empty.extend "x" none)
        [f, .fn "g" none [] a (.call (.var "f" none a) [.int 1 a] a) a]
        (.int 1 a) (.mono .int) (.fault .missingScheme) ∧
      SplitFails (Env.empty.declareGeneric "id" ["T"] (.function [.con "T" []] (.con "T" [])))
        [f, .fn "g" none [⟨"y", a⟩] a (.call (.var "id" (some [.var 4]) a) [.var "y" none a] a) a]
        (.int 1 a) (.mono .int)
        (.error (.unify (.infinite 5 (.function [.var 5] (.var 5))))) := by
  refine ⟨.of_components [[0], [1]] (by cbv) ?_ ?_, .of_components [[0], [1]] (by cbv) ?_ ?_,
    .of_components [[1], [0]] (by cbv) ?_ ?_, .of_components [[1], [0]] (by cbv) ?_ ?_,
    .of_components [[0], [1]] (by cbv) ?_ ?_, .of_components [[0], [1]] (by cbv) ?_ ?_⟩
  all_goals decide +kernel

end Polytype
