import Mathlib
import Polytype.Proofs.Ty.Substitution

/-!
# Instances of schemes

`g.apply args` is the type of the scheme `g` with the types `args` for its parameters. A scheme may
mention variables besides its parameters; under an assignment `σ` of those its instances are
`g.applyUnder σ args`, and `Scheme.Under σ g g'` says that `g'` is a scheme with just these
instances.

`Ty.inst_named` is the law of generalisation: to name variables by constructors that are new to a
type, and to fill the names again, is to fill the variables.
-/

namespace Polytype

/-! ## Assignments changed at some variables -/

/-- The assignment `σ` with types `args` for the variables `ids`. -/
def assign (ids : List Int) (args : List Ty) (σ : Int → Ty) (i : Int) : Ty :=
  ((ids.zip args).lookup i).getD (σ i)

/-- Names variables: each of `ids` becomes the constructor of its name, and the others stay. -/
def named (ids : List Int) (names : List String) : Int → Ty :=
  assign ids (names.map fun n => .con n []) .var

theorem mem_of_lookup {α β : Type} [BEq α] [LawfulBEq α] {l : List (α × β)} {a : α} {b : β}
    (h : l.lookup a = some b) : (a, b) ∈ l := by
  obtain ⟨l₁, l₂, rfl, _⟩ := List.lookup_eq_some_iff.mp h
  exact List.mem_append_right l₁ List.mem_cons_self

theorem lookup_zip_of_not_mem {α β : Type} [BEq α] [LawfulBEq α] {a : α} :
    ∀ {as : List α} {bs : List β}, a ∉ as → (as.zip bs).lookup a = none
  | [], bs, _ => by simp
  | _ :: _, [], _ => by simp
  | x :: as, b :: bs, h => by
    have hx : (a == x) = false := by
      rw [beq_eq_false_iff_ne]
      exact fun he => h (he ▸ List.mem_cons_self)
    rw [List.zip_cons_cons, List.lookup_cons, hx]
    exact lookup_zip_of_not_mem fun ha => h (List.mem_cons_of_mem _ ha)

theorem lookup_zip_of_mem {α β : Type} [BEq α] [LawfulBEq α] {a : α} :
    ∀ {as : List α} {bs : List β}, as.length = bs.length → a ∈ as →
      ∃ b ∈ bs, (as.zip bs).lookup a = some b
  | [], _, _, h => absurd h List.not_mem_nil
  | _ :: _, [], hl, _ => by simp at hl
  | x :: as, b :: bs, hl, h => by
    rw [List.zip_cons_cons, List.lookup_cons]
    cases hx : a == x with
    | true => exact ⟨b, List.mem_cons_self, rfl⟩
    | false =>
      have ha : a ∈ as := by
        rcases List.mem_cons.mp h with rfl | ha
        · simp at hx
        · exact ha
      obtain ⟨c, hc, hs⟩ := lookup_zip_of_mem (Nat.succ.inj hl) ha
      exact ⟨c, List.mem_cons_of_mem _ hc, hs⟩

theorem lookup_zip_map {α β γ : Type} [BEq α] (f : β → γ) (a : α) :
    ∀ (as : List α) (bs : List β),
      (as.zip (bs.map f)).lookup a = ((as.zip bs).lookup a).map f
  | [], bs => by simp
  | _ :: _, [] => by simp
  | x :: as, b :: bs => by
    rw [List.map_cons, List.zip_cons_cons, List.zip_cons_cons, List.lookup_cons, List.lookup_cons]
    cases a == x with
    | true => rfl
    | false => exact lookup_zip_map f a as bs

theorem assign_of_not_mem {ids : List Int} {args : List Ty} {σ : Int → Ty} {i : Int}
    (h : i ∉ ids) : assign ids args σ i = σ i := by
  rw [assign, lookup_zip_of_not_mem h, Option.getD_none]

/-- Renumbering the variables that types are assigned to. -/
theorem assign_map_ids {f : Int → Int} {ids : List Int} {i : Int}
    (hf : ∀ v ∈ ids, f i = f v → i = v) {args : List Ty} (hl : ids.length = args.length)
    (σ τ : Int → Ty) (hi : i ∈ ids) :
    assign (ids.map f) args τ (f i) = assign ids args σ i := by
  have hlookup : ((ids.map f).zip args).lookup (f i) = (ids.zip args).lookup i := by
    clear hl hi
    induction ids generalizing args with
    | nil => simp
    | cons id ids ih =>
      cases args with
      | nil => simp
      | cons a args =>
        rw [List.forall_mem_cons] at hf
        rw [List.map_cons, List.zip_cons_cons, List.zip_cons_cons, List.lookup_cons,
          List.lookup_cons, ih hf.2]
        by_cases hi : i = id
        · simp [hi]
        · have h1 : (i == id) = false := by simpa using hi
          have h2 : (f i == f id) = false := by simpa using fun he => hi (hf.1 he)
          rw [h1, h2]
  obtain ⟨a, _, hs⟩ := lookup_zip_of_mem hl hi
  rw [assign, assign, hlookup, hs]
  rfl

theorem named_cases (ids : List Int) (names : List String) (i : Int) :
    named ids names i = .var i ∨ ∃ n ∈ names, named ids names i = .con n [] := by
  rw [named, assign]
  cases hl : (ids.zip (names.map fun n => Ty.con n [])).lookup i with
  | none => exact .inl rfl
  | some a =>
    obtain ⟨n, hn, rfl⟩ := List.mem_map.mp (List.of_mem_zip (mem_of_lookup hl)).2
    exact .inr ⟨n, hn, rfl⟩

theorem mem_consts_named {ids : List Int} {names : List String} {i : Int} {c : String}
    (h : c ∈ (named ids names i).consts) : c ∈ names := by
  rcases named_cases ids names i with heq | ⟨n, hn, heq⟩
  · simp [heq] at h
  · rw [heq, Ty.consts_con_nil, List.mem_singleton] at h
    exact h ▸ hn

@[simp] theorem assign_nil (args : List Ty) (σ : Int → Ty) : assign [] args σ = σ :=
  funext fun _ => assign_of_not_mem List.not_mem_nil

/-- Assigning to variables their values under `τ` gives `τ` on them. -/
theorem assign_map {ids : List Int} {τ σ : Int → Ty} {i : Int} (h : i ∈ ids) :
    assign ids (ids.map τ) σ i = τ i := by
  have hself : ∀ {as : List Int}, i ∈ as → (as.zip as).lookup i = some i := by
    intro as
    induction as with
    | nil => exact fun h => absurd h List.not_mem_nil
    | cons x as ih =>
      intro h
      rw [List.zip_cons_cons, List.lookup_cons]
      cases hx : i == x with
      | true => rw [beq_iff_eq] at hx; rw [hx]
      | false =>
        rcases List.mem_cons.mp h with rfl | h
        · simp at hx
        · exact ih h
  rw [assign, lookup_zip_map, hself h, Option.map_some, Option.getD_some]

/-! ## Arguments of parameters -/

namespace Scheme

@[simp] theorem argument?_nil (args : List Ty) (n : String) : argument? [] args n = none := rfl

theorem argument?_cons (p : String) (ps : List String) (a : Ty) (as : List Ty) (n : String) :
    argument? (p :: ps) (a :: as) n =
      (argument? ps as n).or (if n == p then some a else none) := by
  rw [argument?, argument?, List.zip_cons_cons, List.reverse_cons, List.lookup_append,
    List.lookup_cons]
  cases n == p <;> rfl

theorem argument?_of_not_mem {ps : List String} {as : List Ty} {n : String} (h : n ∉ ps) :
    argument? ps as n = none := by
  rw [argument?, List.lookup_eq_none_iff]
  intro p hp
  have hmem : p.1 ∈ ps := (List.of_mem_zip (List.mem_reverse.mp hp)).1
  rw [bne_iff_ne]
  exact fun he => h (he ▸ hmem)

theorem argument?_isSome {ps : List String} {as : List Ty} (hl : as.length = ps.length)
    {n : String} (h : n ∈ ps) : ∃ a ∈ as, argument? ps as n = some a := by
  induction ps generalizing as with
  | nil => exact absurd h List.not_mem_nil
  | cons p ps ih =>
    cases as with
    | nil => simp at hl
    | cons a as =>
      rw [argument?_cons]
      by_cases hn : n ∈ ps
      · obtain ⟨b, hb, hs⟩ := ih (Nat.succ.inj hl) hn
        exact ⟨b, List.mem_cons_of_mem _ hb, by rw [hs]; rfl⟩
      · have hp : n = p := by
          rcases List.mem_cons.mp h with rfl | h
          · rfl
          · exact absurd h hn
        exact ⟨a, List.mem_cons_self, by rw [argument?_of_not_mem hn, hp]; simp⟩

theorem argument?_map (f : Ty → Ty) (ps : List String) (as : List Ty) (n : String) :
    argument? ps (as.map f) n = (argument? ps as n).map f := by
  induction ps generalizing as with
  | nil => simp
  | cons p ps ih =>
    cases as with
    | nil => rfl
    | cons a as =>
      rw [List.map_cons, argument?_cons, argument?_cons, ih]
      cases argument? ps as n <;> cases n == p <;> rfl

/-- The argument of the name that a variable was given is the type for the variable. -/
theorem argument?_of_lookup {ids : List Int} {names : List String} {args : List Ty} {i : Int}
    {n : String} (hd : names.Nodup) (hn : ids.length = names.length)
    (ha : args.length = names.length) (h : (ids.zip names).lookup i = some n) :
    argument? names args n = (ids.zip args).lookup i := by
  induction ids generalizing names args with
  | nil => simp at h
  | cons id ids ih =>
    cases names with
    | nil => simp at hn
    | cons m names =>
      cases args with
      | nil => simp at ha
      | cons a args =>
        rw [List.nodup_cons] at hd
        rw [List.zip_cons_cons, List.lookup_cons] at h ⊢
        rw [argument?_cons]
        cases hi : i == id with
        | true =>
          simp only [hi, Option.some.injEq] at h
          subst h
          simp [argument?_of_not_mem hd.1]
        | false =>
          simp only [hi] at h
          have hmem : n ∈ names := (List.of_mem_zip (mem_of_lookup h)).2
          have hne : (n == m) = false := by
            rw [beq_eq_false_iff_ne]
            exact fun he => hd.1 (he ▸ hmem)
          rw [hne, ih hd.2 (Nat.succ.inj hn) (Nat.succ.inj ha) h]
          cases (ids.zip args).lookup i <;> rfl

end Scheme

/-- To name variables by constructors that are new to a type, and to fill the names again, is to
fill the variables. -/
theorem Ty.inst_named {ids : List Int} {names : List String} {args : List Ty} {σ : Int → Ty}
    {t : Ty} (hd : names.Nodup) (hn : ids.length = names.length)
    (ha : args.length = names.length) (hnew : ∀ n ∈ names, n ∉ t.consts) :
    (t.subst (named ids names)).inst (Scheme.argument? names args) σ =
      t.subst (assign ids args σ) := by
  rw [Ty.inst_subst]
  have hnone : ∀ c ∈ t.consts, Scheme.argument? names args c = none := fun c hc =>
    Scheme.argument?_of_not_mem fun hm => hnew c hm hc
  rw [Ty.inst_eq_subst hnone]
  refine Ty.subst_congr fun i _ => ?_
  rw [named, assign, assign, lookup_zip_map]
  cases hl : (ids.zip names).lookup i with
  | none =>
    have hi : i ∉ ids := by
      intro hm
      obtain ⟨n, _, hs⟩ := lookup_zip_of_mem hn hm
      rw [hl] at hs
      cases hs
    rw [lookup_zip_of_not_mem hi]
    simp
  | some n =>
    have hi : i ∈ ids := (List.of_mem_zip (mem_of_lookup hl)).1
    obtain ⟨a, _, hs⟩ := lookup_zip_of_mem (hn.trans ha.symm) hi
    rw [Option.map_some, Option.getD_some, Ty.inst_con_nil,
      Scheme.argument?_of_lookup hd hn ha hl, hs]
    rfl

namespace Scheme

/-! ## Instances -/

/-- The type of a scheme with types for its parameters. -/
def apply (g : Scheme) (args : List Ty) : Ty := g.body.replace (argument? g.params args)

/-- The type of a scheme with types for its parameters and under an assignment of its
variables. -/
def applyUnder (g : Scheme) (σ : Int → Ty) (args : List Ty) : Ty :=
  g.body.inst (argument? g.params args) σ

/-- A type is an instance of a scheme if some types for the parameters turn the one into the
other. -/
def IsInstance (g : Scheme) (t : Ty) : Prop :=
  ∃ args : List Ty, args.length = g.params.length ∧ g.apply args = t

@[simp] theorem apply_mono (t : Ty) (args : List Ty) : (mono t).apply args = t :=
  Ty.replace_eq_self fun _ _ => rfl

@[simp] theorem applyUnder_mono (t : Ty) (σ : Int → Ty) (args : List Ty) :
    (mono t).applyUnder σ args = t.subst σ :=
  Ty.inst_eq_subst fun _ _ => rfl

/-- Where the variables of a scheme stay as they are, its instances are those without an
assignment. -/
theorem applyUnder_eq_apply {g : Scheme} {σ : Int → Ty} (h : ∀ i ∈ g.body.vars, σ i = .var i)
    (args : List Ty) : g.applyUnder σ args = g.apply args := by
  rw [applyUnder, apply, ← Ty.inst_var_eq_replace]
  exact Ty.inst_congr (fun _ _ => rfl) h

theorem applyUnder_congr {g : Scheme} {σ τ : Int → Ty} (h : ∀ i ∈ g.body.vars, σ i = τ i)
    (args : List Ty) : g.applyUnder σ args = g.applyUnder τ args :=
  Ty.inst_congr (fun _ _ => rfl) h

/-- An instance by variables, under an assignment of those too. -/
theorem subst_apply (g : Scheme) (σ : Int → Ty) (args : List Ty) :
    (g.apply args).subst σ = g.applyUnder σ (args.map (Ty.subst σ)) := by
  rw [apply, Ty.subst_replace, applyUnder]
  exact Ty.inst_congr (fun c _ => (argument?_map _ _ _ _).symm) fun _ _ => rfl

/-- `g'` is the scheme `g` under an assignment of its variables: it has as many parameters and the
same instances. -/
structure Under (σ : Int → Ty) (g g' : Scheme) : Prop where
  length : g'.params.length = g.params.length
  apply_eq : ∀ args : List Ty, args.length = g.params.length → g'.apply args = g.applyUnder σ args

theorem Under.mono (σ : Int → Ty) (t : Ty) : Under σ (mono t) (Scheme.mono (t.subst σ)) :=
  ⟨rfl, fun args _ => by rw [apply_mono, applyUnder_mono]⟩

theorem Under.congr {σ τ : Int → Ty} {g g' : Scheme} (h : Under σ g g')
    (hv : ∀ i ∈ g.body.vars, σ i = τ i) : Under τ g g' :=
  ⟨h.length, fun args ha => by rw [h.apply_eq args ha, applyUnder_congr hv]⟩

theorem Under.closed {g : Scheme} (h : g.body.vars = []) (σ : Int → Ty) : Under σ g g :=
  ⟨rfl, fun args _ => (applyUnder_eq_apply (by simp [h]) args).symm⟩

/-- With closed types for the parameters only the variables of the scheme are left. -/
theorem mem_vars_apply {g : Scheme} {args : List Ty} (ha : ∀ a ∈ args, a.vars = []) {v : Int} :
    v ∈ (g.apply args).vars ↔ v ∈ g.body.vars := by
  rw [← applyUnder_eq_apply fun _ _ => rfl, applyUnder, Ty.mem_vars_inst]
  constructor
  · rintro (⟨c, _, u, hu, hv⟩ | ⟨i, hi, hv⟩)
    · rw [ha u (List.of_mem_zip (List.mem_reverse.mp (mem_of_lookup hu))).2] at hv
      cases hv
    · rw [Ty.vars_var, List.mem_singleton] at hv
      exact hv ▸ hi
  · exact fun hv => .inr ⟨v, hv, by simp⟩

/-- Under an assignment, `g` has all instances of `g'`. -/
def AtLeast (σ : Int → Ty) (g g' : Scheme) : Prop :=
  ∀ args' : List Ty, args'.length = g'.params.length →
    ∃ args : List Ty, args.length = g.params.length ∧ g.applyUnder σ args = g'.apply args'

theorem Under.atLeast {σ : Int → Ty} {g g' : Scheme} (h : Under σ g g') : AtLeast σ g g' :=
  fun args' ha => ⟨args', ha.trans h.length, (h.apply_eq args' (ha.trans h.length)).symm⟩

theorem AtLeast.congr {σ τ : Int → Ty} {g g' : Scheme} (h : AtLeast σ g g')
    (hv : ∀ i ∈ g.body.vars, σ i = τ i) : AtLeast τ g g' := by
  intro args' ha
  obtain ⟨args, hl, heq⟩ := h args' ha
  exact ⟨args, hl, by rw [← applyUnder_congr hv, heq]⟩

/-- The variables that stay in all instances of `g` are variables of `g'`. -/
theorem AtLeast.mem_vars {σ : Int → Ty} {g g' : Scheme} (h : AtLeast σ g g') {i v : Int}
    (hi : i ∈ g.body.vars) (hv : v ∈ (σ i).vars) : v ∈ g'.body.vars := by
  obtain ⟨args, _, heq⟩ := h (g'.params.map fun _ => .int) (List.length_map _)
  have hclosed : ∀ a ∈ g'.params.map (fun _ => Ty.int), a.vars = [] := by simp [Ty.int]
  rw [← mem_vars_apply hclosed, ← heq, applyUnder, Ty.mem_vars_inst]
  exact .inr ⟨i, hi, hv⟩

/-- The instances of the scheme that names variables of a type, under an assignment of the
others. -/
theorem applyUnder_named {ids : List Int} {names : List String} {t : Ty} {σ : Int → Ty}
    {args : List Ty} (hd : names.Nodup) (hn : ids.length = names.length)
    (ha : args.length = names.length) (hnew : ∀ n ∈ names, n ∉ t.consts) :
    (⟨names, t.subst (named ids names)⟩ : Scheme).applyUnder σ args =
      t.subst (assign ids args σ) :=
  Ty.inst_named hd hn ha hnew

theorem apply_named {ids : List Int} {names : List String} {t : Ty}
    {args : List Ty} (hd : names.Nodup) (hn : ids.length = names.length)
    (ha : args.length = names.length) (hnew : ∀ n ∈ names, n ∉ t.consts) :
    (⟨names, t.subst (named ids names)⟩ : Scheme).apply args =
      t.subst (assign ids args .var) := by
  rw [← applyUnder_eq_apply fun _ _ => rfl]
  exact applyUnder_named hd hn ha hnew

end Scheme

end Polytype
