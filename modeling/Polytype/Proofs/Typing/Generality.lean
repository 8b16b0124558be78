import Mathlib
import Polytype.Proofs.Expr.FreeNames
import Polytype.Proofs.Typing.Completeness

/-!
# More general environments

A derivable type stays derivable when the free names of an expression are bound to more general types,
and other names to types without variables (`HasType.weaken`).

A group is generalised in the environment around it, so that the functions of a group inside the
expression do not keep their generic types: the environment mentions fewer variables, and more of them
become parameters. The types of the functions stay, and the generic types that they get are at least as
general. So the relation between the environments (`Env.Covers`) is carried on, but not the number of
parameters, and type arguments must not be given to functions of groups here either.
-/

namespace Polytype

/-! ## Generalisation -/

section

variable {Γ Γ' : Env} {t : Ty} {g g' : Scheme}

theorem Generalizes.exists (Γ : Env) (t : Ty) : ∃ g, Generalizes Γ t g := by
  obtain ⟨names, hlen, hdup, hnew⟩ := exists_names (firstsNotIn t.vars Γ.vars).length t.names
  exact ⟨⟨names, t.subst (named (firstsNotIn t.vars Γ.vars) names)⟩, hlen, hdup, hnew, rfl⟩

theorem Generalizes.exists_list (Γ : Env) (ts : List Ty) :
    ∃ gs, List.Forall₂ (Generalizes Γ) ts gs := by
  induction ts with
  | nil => exact ⟨[], .nil⟩
  | cons t ts ih =>
    obtain ⟨g, hg⟩ := Generalizes.exists Γ t
    obtain ⟨gs, hgs⟩ := ih
    exact ⟨g :: gs, .cons hg hgs⟩

/-- An assignment of the variables that become parameters is an instance. -/
theorem Generalizes.applyUnder (h : Generalizes Γ t g) {τ : Int → Ty}
    (hτ : ∀ v ∈ t.vars, v ∈ Γ.vars → τ v = .var v) :
    ∃ args : List Ty, args.length = g.params.length ∧ g.applyUnder .var args = t.subst τ := by
  have hlen : ((firstsNotIn t.vars Γ.vars).map τ).length = g.params.length := by
    rw [List.length_map, h.length]
  refine ⟨_, hlen, ?_⟩
  rw [Scheme.applyUnder_eq_apply fun _ _ => rfl, h.apply hlen]
  refine Ty.subst_congr fun v hv => ?_
  by_cases hm : v ∈ firstsNotIn t.vars Γ.vars
  · exact assign_map hm
  · rw [assign_of_not_mem hm, hτ v hv]
    by_contra hn
    exact hm (mem_firstsNotIn.mpr ⟨hv, hn⟩)

/-- A generic type has the type that it comes from as an instance. -/
theorem Generalizes.atLeast_mono (h : Generalizes Γ t g) : Scheme.AtLeast .var g (.mono t) := by
  intro args _
  rw [Scheme.apply_mono]
  obtain ⟨args', hlen, heq⟩ := h.applyUnder fun v _ _ => (rfl : Ty.var v = .var v)
  exact ⟨args', hlen, heq.trans (Ty.subst_id t)⟩

/-- What is left of the variables is mentioned by the environment. -/
theorem Generalizes.mem_vars (h : Generalizes Γ t g) {v : Int} (hv : v ∈ g.body.vars) :
    v ∈ Γ.vars := by
  have hat : Scheme.AtLeast .var g (.mono (t.subst fun u => if u ∈ Γ.vars then .var u else .int)) := by
    intro args _
    rw [Scheme.apply_mono]
    exact h.applyUnder fun u _ hu => if_pos hu
  obtain ⟨u, _, hu⟩ := Ty.mem_vars_subst.mp (hat.mem_vars hv (by simp : v ∈ (Ty.var v).vars))
  by_cases hm : u ∈ Γ.vars
  · rw [if_pos hm, Ty.vars_var, List.mem_singleton] at hu
    exact hu ▸ hm
  · rw [if_neg hm] at hu
    simp [Ty.int] at hu

/-- The fewer variables an environment mentions, the more general a type becomes in it. -/
theorem Generalizes.atLeast (h' : Generalizes Γ' t g') (h : Generalizes Γ t g)
    (hv : ∀ v ∈ Γ'.vars, v ∈ Γ.vars) : Scheme.AtLeast .var g' g := by
  intro args ha
  rw [h.apply ha]
  refine h'.applyUnder fun v _ hm => assign_of_not_mem fun hi => ?_
  exact (mem_firstsNotIn.mp hi).2 (hv v hm)

theorem Generalizes.atLeast_list {ts : List Ty} {gs' gs : List Scheme}
    (h' : List.Forall₂ (Generalizes Γ') ts gs') (h : List.Forall₂ (Generalizes Γ) ts gs)
    (hv : ∀ v ∈ Γ'.vars, v ∈ Γ.vars) : List.Forall₂ (Scheme.AtLeast .var) gs' gs := by
  induction h' generalizing gs with
  | nil =>
    cases h
    exact .nil
  | cons hg' _ ih =>
    cases h with
    | cons hg hgs => exact .cons (hg'.atLeast hg hv) (ih hgs)

end

/-! ## Environments that cover another -/

theorem Fits.refl (G : String → Prop) (x : String) (g : Scheme) : Fits .var G x g g := by
  have hunder : Scheme.Under .var g g :=
    ⟨rfl, fun args _ => (Scheme.applyUnder_eq_apply (fun _ _ => rfl) args).symm⟩
  exact hunder.fits G x

/-- At the names `N` an environment is at least as general as another one, and the same where they are
not names of groups. -/
abbrev Env.Covers (N G : String → Prop) (Γ' Γ : Env) : Prop := Γ'.RelOn N (Fits .var G) Γ

namespace Env.Covers

variable {N N' G G' : String → Prop} {Γ Γ' : Env}

/-- It mentions no other variables. -/
theorem mem_vars (h : Γ'.Covers N G Γ) {v : Int} (hv : v ∈ Γ'.vars) : v ∈ Γ.vars := by
  obtain ⟨x, g', hx, hv⟩ := Env.mem_vars.mp hv
  obtain ⟨g, hg, hfits⟩ := h.lookup_vars hx hv
  refine Env.mem_vars.mpr ⟨x, g, hg, hfits.1.mem_vars hv ?_⟩
  simp

theorem mono (h : Γ'.Covers N G Γ) (hN : ∀ y, N' y → N y) : Γ'.Covers N' G Γ :=
  h.imp (fun _ _ _ hfits => hfits) hN

theorem declare (h : Γ'.Covers N G Γ) (x : String) (t : Ty) (hG : ∀ y, y ≠ x → G y → G' y)
    (hN : ∀ y, N' y → y ≠ x → N y) : (Γ'.declare x t).Covers N' G' (Γ.declare x t) := by
  refine h.extend (Fits.refl G' x _) (fun y hy g g' hfits => ⟨hfits.1, fun hn => ?_⟩) hN
  exact hfits.2 fun hg => hn (hG y hy hg)

theorem declareParams (h : Γ'.Covers N G Γ) {ps : List Param}
    (hG : ∀ y, y ∉ ps.map (·.name) → G y → G' y) (hN : ∀ y, N' y → y ∉ ps.map (·.name) → N y) :
    (Γ'.declareParams ps).Covers N' G' (Γ.declareParams ps) := by
  induction ps generalizing Γ Γ' N G with
  | nil =>
    refine h.imp (fun y g g' hfits => ⟨hfits.1, fun hn => ?_⟩) fun y hy => hN y hy (by simp)
    exact hfits.2 fun hg => hn (hG y (by simp) hg)
  | cons p ps ih =>
    have hone : (Γ'.declare p.name p.ty).Covers (fun y => N' y ∧ y ∉ ps.map (·.name))
        (fun y => G y ∧ y ≠ p.name) (Γ.declare p.name p.ty) := by
      refine h.declare p.name p.ty (fun y hne hg => ⟨hg, hne⟩) ?_
      rintro y ⟨hy, hn⟩ hne
      exact hN y hy (by simpa using ⟨hne, by simpa using hn⟩)
    refine ih hone ?_ fun y hy hn => ⟨hy, hn⟩
    rintro y hn ⟨hg, hne⟩
    exact hG y (by simpa using ⟨hne, by simpa using hn⟩) hg

theorem afterItem (h : Γ'.Covers N G Γ) (e : Expr) (t : Ty)
    (hN : ∀ y, N' y → e.boundAfter? ≠ some y → N y) :
    (Γ'.afterItem e t).Covers N' (fun y => G y ∧ e.boundAfter? ≠ some y) (Γ.afterItem e t) := by
  unfold Env.afterItem
  cases hb : e.boundAfter? with
  | none =>
    refine h.imp (fun y g g' hfits => ⟨hfits.1, fun hn => ?_⟩) fun y hy => hN y hy (by simp [hb])
    exact hfits.2 fun hg => hn ⟨hg, by simp⟩
  | some name =>
    refine h.declare name t (fun y hne hg => ⟨hg, ?_⟩) fun y hy hne => hN y hy ?_
    · simpa using Ne.symm hne
    · simpa [hb] using Ne.symm hne

/-- The functions of a group have the same types inside the group. -/
theorem inside (h : Γ'.Covers N G Γ) {bs : List Binding} {ts : List Ty}
    (hlen : ts.length = bs.length) (hN : ∀ y, N' y → y ∉ bs.map (·.name) → N y) :
    (Γ'.extendGroup bs (ts.map .mono)).Covers N' (fun y => G y ∨ y ∈ bs.map (·.name))
      (Γ.extendGroup bs (ts.map .mono)) := by
  refine h.extendGroup (List.forall₂_same.mpr fun _ _ => rfl : List.Forall₂ Eq _ _)
    (by rw [List.length_map, hlen]) ?_ ?_ hN
  · rintro y _ g _ rfl
    exact Fits.refl _ y g
  · exact fun y hy g g' hfits => ⟨hfits.1, fun hn => hfits.2 fun hg => hn (.inl hg)⟩

/-- Outside a group its functions may become more general. -/
theorem outside (h : Γ'.Covers N G Γ) {bs : List Binding} {gs' gs : List Scheme}
    (hgs : List.Forall₂ (Scheme.AtLeast .var) gs' gs) (hlen : gs'.length = bs.length)
    (hN : ∀ y, N' y → y ∉ bs.map (·.name) → N y) :
    (Γ'.extendGroup bs gs').Covers N' (fun y => G y ∨ y ∈ bs.map (·.name))
      (Γ.extendGroup bs gs) := by
  refine h.extendGroup hgs hlen ?_ ?_ hN
  · exact fun y hy g g' hat => ⟨hat, fun hn => absurd (.inr hy) hn⟩
  · exact fun y hy g g' hfits => ⟨hfits.1, fun hn => hfits.2 fun hg => hn (.inl hg)⟩

end Env.Covers

/-! ## Derivations -/

/-- The types of an expression are kept in every environment that covers the old one. -/
def KeepsTypes (e : Expr) : Prop :=
  ∀ {Γ Γ' : Env} {G : String → Prop} {t : Ty}, e.NoArgsAt G → Γ'.Covers (· ∈ e.free) G Γ →
    HasType Γ e t → HasType Γ' e t

section

variable {Γ Γ' : Env} {G : String → Prop}

theorem HasEach.weaken {es : List Expr} {ts : List Ty} (ih : ∀ e ∈ es, KeepsTypes e)
    (hG : ∀ e ∈ es, e.NoArgsAt G) (hΓ : Γ'.Covers (fun x => ∃ e ∈ es, x ∈ e.free) G Γ)
    (h : HasEach Γ es ts) : HasEach Γ' es ts := by
  induction es generalizing ts with
  | nil =>
    cases h
    exact .nil
  | cons e es ihs =>
    cases h with
    | cons h hrest =>
      rw [List.forall_mem_cons] at ih hG
      refine .cons (ih.1 hG.1 (hΓ.mono fun y hy => ⟨e, List.mem_cons_self, hy⟩) h)
        (ihs ih.2 hG.2 (hΓ.mono ?_) hrest)
      rintro y ⟨f, hf, hy⟩
      exact ⟨f, List.mem_cons_of_mem _ hf, hy⟩

theorem HasItems.weaken {es : List Expr} {t : Ty} (ih : ∀ e ∈ es, KeepsTypes e)
    (hG : Expr.NoArgsAtItems G es) (hΓ : Γ'.Covers (· ∈ Expr.freeItems es) G Γ)
    (h : HasItems Γ es t) : HasItems Γ' es t := by
  induction es generalizing Γ Γ' G with
  | nil => cases h
  | cons e es ihs =>
    rw [List.forall_mem_cons] at ih
    rw [Expr.NoArgsAtItems] at hG
    have he : Γ'.Covers (· ∈ e.free) G Γ := hΓ.mono fun y hy => Expr.mem_freeItems_cons.mpr (.inl hy)
    cases h with
    | last h => exact .last (ih.1 hG.1 he h)
    | @cons _ _ _ _ u _ h hrest =>
      refine .cons (ih.1 hG.1 he h) (ihs ih.2 hG.2 (hΓ.afterItem e u fun y hy hne => ?_) hrest)
      exact Expr.mem_freeItems_cons.mpr (.inr ⟨hy, hne⟩)

theorem HasBindings.weaken {bs : List Binding} {ts : List Ty}
    (ih : ∀ b ∈ bs, ∀ f, b.func? = some f → KeepsTypes f)
    (hG : ∀ b ∈ bs, ∀ f, b.func? = some f → f.NoArgsAt G)
    (hΓ : Γ'.Covers (fun x => ∃ b ∈ bs, ∃ f, b.func? = some f ∧ x ∈ f.free) G Γ)
    (h : HasBindings Γ bs ts) : HasBindings Γ' bs ts := by
  induction bs generalizing ts with
  | nil =>
    cases h
    exact .nil
  | cons b bs ihs =>
    cases h with
    | cons hf h hrest =>
      rw [List.forall_mem_cons] at ih hG
      refine .cons hf (ih.1 _ hf (hG.1 _ hf) (hΓ.mono fun y hy => ⟨b, List.mem_cons_self, _, hf, hy⟩) h)
        (ihs ih.2 hG.2 (hΓ.mono ?_) hrest)
      rintro y ⟨c, hc, hy⟩
      exact ⟨c, List.mem_cons_of_mem _ hc, hy⟩

theorem var_weaken {name : String} {typeArgs : Option (List Ty)} {ty t : Ty}
    (hG : (Expr.var name typeArgs ty).NoArgsAt G)
    (hΓ : Γ'.Covers (· ∈ (Expr.var name typeArgs ty).free) G Γ)
    (h : HasType Γ (.var name typeArgs ty) t) : HasType Γ' (.var name typeArgs ty) t := by
  cases h with
  | @var _ _ _ _ g args hg hlen hgiven =>
    obtain ⟨g', hg', hat, hunder⟩ := hΓ.lookup_right (by simp [Expr.free] : name ∈ _) hg
    cases typeArgs with
    | none =>
      -- the same type, at other arguments
      obtain ⟨args', hlen', heq⟩ := hat args hlen
      rw [← heq, Scheme.applyUnder_eq_apply fun _ _ => rfl]
      exact .var hg' hlen' (by simp)
    | some given =>
      -- the name is not one of a group, and has its generic type in both environments
      have hsame := hunder fun hGx => by cases hG hGx
      have hlen' := hlen.trans hsame.length
      rw [hsame.apply_eq args hlen', Scheme.applyUnder_eq_apply fun _ _ => rfl]
      exact .var hg' hlen' hgiven

/-- A derivable type is derivable in every environment that is at least as general at the free names of
the expression and mentions no other variables. -/
theorem HasType.weaken (e : Expr) : KeepsTypes e := by
  induction e with
  | absent =>
    intro Γ Γ' G t _ _ h
    cases h
  | other kind =>
    intro Γ Γ' G t _ _ h
    cases h
  | int value ty =>
    intro Γ Γ' G t _ _ h
    cases h
    exact .int
  | str value ty =>
    intro Γ Γ' G t _ _ h
    cases h
    exact .str
  | var name typeArgs ty =>
    intro Γ Γ' G t hG hΓ h
    exact var_weaken hG hΓ h
  | func params result body ty ih =>
    intro Γ Γ' G t hG hΓ h
    cases h with
    | @func _ _ typed _ _ _ _ hp hr hb =>
      have hnames : typed.map (·.name) = params.map (·.name) := by
        clear hb hΓ hG
        induction hp with
        | nil => rfl
        | cons hq _ ih => rw [List.map_cons, List.map_cons, hq.1, ih]
      refine .func hp hr (ih hG (hΓ.declareParams ?_ ?_) hb)
      · intro y hn hg
        exact ⟨hg, hnames ▸ hn⟩
      · intro y hy hn
        exact Expr.mem_free_func.mpr ⟨hy, hnames ▸ hn⟩
  | call callee args ty ihf iha =>
    intro Γ Γ' G t hG hΓ h
    rw [Expr.NoArgsAt, Expr.noArgsAtList_iff] at hG
    cases h with
    | call hf has =>
      refine .call (ihf hG.1 (hΓ.mono fun y hy => ?_) hf) (has.weaken iha hG.2 (hΓ.mono fun y hy => ?_))
      · exact Expr.mem_free_call.mpr (.inl hy)
      · exact Expr.mem_free_call.mpr (.inr hy)
  | letIn name annot value body ty ihv ihb =>
    intro Γ Γ' G t hG hΓ h
    rw [Expr.NoArgsAt] at hG
    have hvalue : Γ'.Covers (· ∈ value.free) G Γ :=
      hΓ.mono fun y hy => Expr.mem_free_letIn.mpr (.inl hy)
    cases h with
    | letIn hab ha hv hb =>
      refine .letIn hab ha (ihv hG.1 hvalue hv) (ihb hG.2 (hΓ.declare name _ ?_ ?_) hb)
      · exact fun y hne hg => ⟨hg, hne⟩
      · exact fun y hy hne => Expr.mem_free_letIn.mpr (.inr ⟨hy, hne⟩)
    | letAlone ha hv => exact .letAlone ha (ihv hG.1 hvalue hv)
  | group bs body ty ihf ihb =>
    intro Γ Γ' G t hG hΓ h
    rw [Expr.NoArgsAt, Expr.noArgsAtBindings_iff] at hG
    cases h with
    | @group _ _ ts gs _ _ _ hnone hfs hgen hb =>
      have hlen : ts.length = bs.length := hfs.length
      obtain ⟨gs', hgen'⟩ := Generalizes.exists_list Γ' ts
      have hat := Generalizes.atLeast_list hgen' hgen fun v => hΓ.mem_vars
      refine .group hnone (hfs.weaken ihf hG.1 (hΓ.inside hlen ?_)) hgen'
        (ihb hG.2 (hΓ.outside hat (hgen'.length_eq.symm.trans hlen) ?_) hb)
      · exact fun y hy hn => Expr.mem_free_group.mpr ⟨.inl hy, hn⟩
      · exact fun y hy hn => Expr.mem_free_group.mpr ⟨.inr hy, hn⟩
  | array item items ty ih =>
    intro Γ Γ' G t hG hΓ h
    rw [Expr.NoArgsAt, Expr.noArgsAtList_iff] at hG
    cases h with
    | array ha hes =>
      refine .array ha fun e he => ih e he (hG e he) (hΓ.mono fun y hy => ?_) (hes e he)
      exact Expr.mem_free_array.mpr ⟨e, he, hy⟩
  | seq effect value ty ihe ihv =>
    intro Γ Γ' G t hG hΓ h
    rw [Expr.NoArgsAt] at hG
    cases h with
    | seq he hv =>
      refine .seq (ihe hG.1 (hΓ.mono fun y hy => ?_) he) (ihv hG.2 (hΓ.mono fun y hy => ?_) hv)
      · exact Expr.mem_free_seq.mpr (.inl hy)
      · exact Expr.mem_free_seq.mpr (.inr hy)
  | block items ty ih =>
    intro Γ Γ' G t hG hΓ h
    cases h with
    | block hes =>
      refine .block (hes.weaken ih hG (hΓ.mono fun y hy => ?_))
      rwa [Expr.free]

end

end Polytype
