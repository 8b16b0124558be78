import Mathlib
import Polytype.Store.Basic

/-!
# Substitution in types

A type has two kinds of places that can be filled: its variables, and its constructors without
arguments, which stand for the parameters of a scheme. `Ty.subst` fills the first kind, `Ty.replace`
the second, and `Ty.inst` both at once. Filling both at once is what an instance of a scheme means
under an assignment of its free variables: a parameter's name is never looked for inside the type
that a variable is assigned.

The main statement is `Ty.inst_named`: naming variables by constructors that are new to the type,
and filling those names again, is the same as filling the variables.
-/

namespace Polytype

namespace Ty

/-! ## Induction -/

/-- Induction over a type, with one hypothesis for each argument of a constructor. -/
@[induction_eliminator]
theorem induct {motive : Ty → Prop} (absent : motive .absent) (var : ∀ id, motive (.var id))
    (con : ∀ name args, (∀ a ∈ args, motive a) → motive (.con name args)) (t : Ty) :
    motive t := by
  refine @Ty.rec motive (fun args => ∀ a ∈ args, motive a) absent var con ?_ ?_ t
  · intro a ha
    exact absurd ha List.not_mem_nil
  · intro a as ha has b hb
    rcases List.mem_cons.mp hb with rfl | hb
    · exact ha
    · exact has b hb

/-! ## Variables and names -/

theorem varsArgs_eq (args : List Ty) : varsArgs args = args.flatMap vars := by
  induction args with
  | nil => rfl
  | cons a as ih => rw [varsArgs, ih, List.flatMap_cons]

@[simp] theorem vars_absent : Ty.absent.vars = [] := rfl

@[simp] theorem vars_var (id : Int) : (var id).vars = [id] := rfl

@[simp] theorem vars_con (name : String) (args : List Ty) :
    (con name args).vars = args.flatMap vars := by
  rw [vars, varsArgs_eq]

theorem namesArgs_eq (args : List Ty) : namesArgs args = args.flatMap names := by
  induction args with
  | nil => rfl
  | cons a as ih => rw [namesArgs, ih, List.flatMap_cons]

@[simp] theorem names_absent : Ty.absent.names = [] := rfl

@[simp] theorem names_var (id : Int) : (var id).names = [] := rfl

@[simp] theorem names_con (name : String) (args : List Ty) :
    (con name args).names = name :: args.flatMap names := by
  rw [names, namesArgs_eq]

/-- The constructors without arguments of a type, from left to right, with repetitions. -/
def consts : Ty → List String
  | absent => []
  | var _ => []
  | con name [] => [name]
  | con _ (a :: as) => constsArgs (a :: as)
where
  /-- The constructors without arguments in the arguments. -/
  constsArgs : List Ty → List String
    | [] => []
    | a :: as => consts a ++ constsArgs as

@[simp] theorem consts_absent : Ty.absent.consts = [] := by rw [consts]

@[simp] theorem consts_var (id : Int) : (var id).consts = [] := by rw [consts]

@[simp] theorem consts_con_nil (name : String) : (con name []).consts = [name] := by rw [consts]

theorem constsArgs_eq (args : List Ty) : consts.constsArgs args = args.flatMap consts := by
  induction args with
  | nil => rw [consts.constsArgs, List.flatMap_nil]
  | cons a as ih => rw [consts.constsArgs, ih, List.flatMap_cons]

theorem consts_con {name : String} {args : List Ty} (h : args ≠ []) :
    (con name args).consts = args.flatMap consts := by
  cases args with
  | nil => exact absurd rfl h
  | cons a as => rw [consts, constsArgs_eq]

theorem mem_consts_of_mem {name c : String} {args : List Ty} {a : Ty} (ha : a ∈ args)
    (hc : c ∈ a.consts) : c ∈ (con name args).consts := by
  rw [consts_con (List.ne_nil_of_mem ha)]
  exact List.mem_flatMap.mpr ⟨a, ha, hc⟩

/-- A constructor without arguments is a constructor. -/
theorem names_of_consts {t : Ty} {c : String} (h : c ∈ t.consts) : c ∈ t.names := by
  induction t with
  | absent => simp at h
  | var id => simp at h
  | con name args ih =>
    rw [names_con]
    cases args with
    | nil => simpa using h
    | cons a as =>
      rw [consts_con (List.cons_ne_nil a as)] at h
      obtain ⟨b, hb, hc⟩ := List.mem_flatMap.mp h
      exact List.mem_cons_of_mem _ (List.mem_flatMap.mpr ⟨b, hb, ih b hb hc⟩)

/-! ## Filling variables -/

theorem substArgs_eq (σ : Int → Ty) (args : List Ty) : substArgs σ args = args.map (subst σ) := by
  induction args with
  | nil => rfl
  | cons a as ih => rw [substArgs, ih, List.map_cons]

@[simp] theorem subst_absent (σ : Int → Ty) : Ty.absent.subst σ = .absent := rfl

@[simp] theorem subst_var (σ : Int → Ty) (id : Int) : (var id).subst σ = σ id := rfl

@[simp] theorem subst_con (σ : Int → Ty) (name : String) (args : List Ty) :
    (con name args).subst σ = con name (args.map (subst σ)) := by
  rw [subst, substArgs_eq]

theorem subst_function (σ : Int → Ty) (params : List Ty) (result : Ty) :
    (function params result).subst σ = function (params.map (subst σ)) (result.subst σ) := by
  simp [function]

theorem subst_array (σ : Int → Ty) (item : Ty) : (array item).subst σ = array (item.subst σ) := by
  simp [array]

theorem subst_congr {σ τ : Int → Ty} {t : Ty} (h : ∀ i ∈ t.vars, σ i = τ i) :
    t.subst σ = t.subst τ := by
  induction t with
  | absent => rfl
  | var id => exact h id List.mem_cons_self
  | con name args ih =>
    rw [subst_con, subst_con, List.map_inj_left.mpr]
    intro a ha
    exact ih a ha fun i hi => h i (by rw [vars_con]; exact List.mem_flatMap.mpr ⟨a, ha, hi⟩)

@[simp] theorem subst_id (t : Ty) : t.subst var = t := by
  induction t with
  | absent => rfl
  | var id => rfl
  | con name args ih => rw [subst_con, List.map_congr_left ih, List.map_id']

theorem subst_eq_self {σ : Int → Ty} {t : Ty} (h : ∀ i ∈ t.vars, σ i = var i) :
    t.subst σ = t := by
  rw [subst_congr h, subst_id]

theorem subst_subst (σ τ : Int → Ty) (t : Ty) :
    (t.subst σ).subst τ = t.subst fun i => (σ i).subst τ := by
  induction t with
  | absent => rfl
  | var id => rfl
  | con name args ih =>
    rw [subst_con, subst_con, subst_con, List.map_map]
    exact congrArg _ (List.map_inj_left.mpr ih)

/-- A type without variables is the same under every assignment. -/
theorem subst_closed {t : Ty} (h : t.vars = []) (σ : Int → Ty) : t.subst σ = t :=
  subst_eq_self fun i hi => by rw [h] at hi; exact absurd hi List.not_mem_nil

theorem vars_subst (σ : Int → Ty) (t : Ty) :
    (t.subst σ).vars = t.vars.flatMap fun i => (σ i).vars := by
  induction t with
  | absent => rfl
  | var id => simp
  | con name args ih =>
    rw [subst_con, vars_con, vars_con, List.flatMap_map, List.flatMap_assoc]
    exact List.flatMap_congr ih

theorem mem_vars_subst {σ : Int → Ty} {t : Ty} {v : Int} :
    v ∈ (t.subst σ).vars ↔ ∃ i ∈ t.vars, v ∈ (σ i).vars := by
  rw [vars_subst, List.mem_flatMap]

theorem eq_of_subst_eq {σ τ : Int → Ty} {t : Ty} (h : t.subst σ = t.subst τ) :
    ∀ i ∈ t.vars, σ i = τ i := by
  induction t with
  | absent => simp
  | var id => simpa using h
  | con name args ih =>
    rw [subst_con, subst_con, con.injEq, List.map_inj_left] at h
    intro i hi
    rw [vars_con] at hi
    obtain ⟨a, ha, hia⟩ := List.mem_flatMap.mp hi
    exact ih a ha (h.2 a ha) i hia

theorem names_subst_var (f : Int → Int) (t : Ty) : (t.subst fun i => .var (f i)).names = t.names := by
  induction t with
  | absent => rfl
  | var id => rfl
  | con name args ih =>
    rw [subst_con, names_con, names_con, List.flatMap_map]
    exact congrArg (name :: ·) (List.flatMap_congr ih)

/-- Two types that are instances of each other differ in the choice of their variables only. -/
theorem exists_renaming {σ τ : Int → Ty} {t u : Ty} (h : t.subst σ = u) (h' : u.subst τ = t) :
    ∃ f : Int → Int, (∀ i ∈ t.vars, ∀ j ∈ t.vars, f i = f j → i = j) ∧
      u = t.subst fun i => .var (f i) := by
  have hback : ∀ i ∈ t.vars, (σ i).subst τ = .var i := by
    subst h
    rw [subst_subst] at h'
    exact eq_of_subst_eq (h'.trans (subst_id t).symm)
  have hvar : ∀ i ∈ t.vars, ∃ j, σ i = .var j := by
    intro i hi
    have hi' := hback i hi
    cases hσ : σ i with
    | absent =>
      rw [hσ] at hi'
      cases hi'
    | var j => exact ⟨j, rfl⟩
    | con name args =>
      rw [hσ, subst_con] at hi'
      cases hi'
  choose! f hf using hvar
  refine ⟨f, fun i hi j hj hij => ?_, ?_⟩
  · have hi' := hback i hi
    rw [hf i hi, hij, ← hf j hj, hback j hj] at hi'
    exact (var.inj hi').symm
  · rw [← h]
    exact subst_congr hf

theorem mem_consts_subst {σ : Int → Ty} {t : Ty} {c : String} :
    c ∈ (t.subst σ).consts ↔ c ∈ t.consts ∨ ∃ i ∈ t.vars, c ∈ (σ i).consts := by
  induction t with
  | absent => simp
  | var id => simp
  | con name args ih =>
    cases args with
    | nil => simp
    | cons a as =>
      rw [subst_con, consts_con (by simp), consts_con (by simp), vars_con]
      simp only [List.mem_flatMap, List.mem_map, exists_exists_and_eq_and]
      constructor
      · rintro ⟨b, hb, hc⟩
        rcases (ih b hb).mp hc with hc | ⟨i, hi, hc⟩
        · exact .inl ⟨b, hb, hc⟩
        · exact .inr ⟨i, ⟨b, hb, hi⟩, hc⟩
      · rintro (⟨b, hb, hc⟩ | ⟨i, ⟨b, hb, hi⟩, hc⟩)
        · exact ⟨b, hb, (ih b hb).mpr (.inl hc)⟩
        · exact ⟨b, hb, (ih b hb).mpr (.inr ⟨i, hi, hc⟩)⟩

/-! ## Filling parameters -/

theorem replaceArgs_eq (l : String → Option Ty) (args : List Ty) :
    replaceArgs l args = args.map (replace l) := by
  induction args with
  | nil => rfl
  | cons a as ih => rw [replaceArgs, ih, List.map_cons]

@[simp] theorem replace_absent (l : String → Option Ty) : Ty.absent.replace l = .absent := rfl

@[simp] theorem replace_var (l : String → Option Ty) (id : Int) :
    (var id).replace l = var id := rfl

@[simp] theorem replace_con_nil (l : String → Option Ty) (name : String) :
    (con name []).replace l = (l name).getD (con name []) := rfl

theorem replace_con (l : String → Option Ty) {name : String} {args : List Ty} (h : args ≠ []) :
    (con name args).replace l = con name (args.map (replace l)) := by
  cases args with
  | nil => exact absurd rfl h
  | cons a as => rw [replace, replaceArgs_eq]

/-! ## Filling both at once -/

/-- Fills constructors without arguments by name and variables by number, each from the type as it
stands. -/
def inst (l : String → Option Ty) (σ : Int → Ty) : Ty → Ty
  | absent => absent
  | var id => σ id
  | con name [] => (l name).getD (con name [])
  | con name (a :: as) => con name (instArgs (a :: as))
where
  /-- Fills the arguments. -/
  instArgs : List Ty → List Ty
    | [] => []
    | a :: as => inst l σ a :: instArgs as

@[simp] theorem inst_absent (l : String → Option Ty) (σ : Int → Ty) :
    Ty.absent.inst l σ = .absent := by rw [inst]

@[simp] theorem inst_var (l : String → Option Ty) (σ : Int → Ty) (id : Int) :
    (var id).inst l σ = σ id := by rw [inst]

@[simp] theorem inst_con_nil (l : String → Option Ty) (σ : Int → Ty) (name : String) :
    (con name []).inst l σ = (l name).getD (con name []) := by rw [inst]

theorem instArgs_eq (l : String → Option Ty) (σ : Int → Ty) (args : List Ty) :
    inst.instArgs l σ args = args.map (inst l σ) := by
  induction args with
  | nil => rw [inst.instArgs, List.map_nil]
  | cons a as ih => rw [inst.instArgs, ih, List.map_cons]

theorem inst_con (l : String → Option Ty) (σ : Int → Ty) {name : String} {args : List Ty}
    (h : args ≠ []) : (con name args).inst l σ = con name (args.map (inst l σ)) := by
  cases args with
  | nil => exact absurd rfl h
  | cons a as => rw [inst, instArgs_eq]

theorem inst_congr {l m : String → Option Ty} {σ τ : Int → Ty} {t : Ty}
    (hl : ∀ c ∈ t.consts, l c = m c) (hσ : ∀ i ∈ t.vars, σ i = τ i) :
    t.inst l σ = t.inst m τ := by
  induction t with
  | absent => simp
  | var id => simpa using hσ id (by simp)
  | con name args ih =>
    by_cases h : args = []
    · subst h
      rw [inst_con_nil, inst_con_nil, hl name (by simp)]
    · rw [inst_con l σ h, inst_con m τ h, List.map_inj_left.mpr]
      intro a ha
      refine ih a ha (fun c hc => hl c (mem_consts_of_mem ha hc)) fun i hi => hσ i ?_
      rw [vars_con]
      exact List.mem_flatMap.mpr ⟨a, ha, hi⟩

/-- Filling the parameters and then the variables of the result. -/
theorem subst_replace (l : String → Option Ty) (σ : Int → Ty) (t : Ty) :
    (t.replace l).subst σ = t.inst (fun c => (l c).map (subst σ)) σ := by
  induction t with
  | absent => simp
  | var id => simp
  | con name args ih =>
    by_cases h : args = []
    · subst h
      cases hl : l name <;> simp [hl]
    · rw [replace_con l h, subst_con, inst_con _ _ h, List.map_map]
      exact congrArg _ (List.map_inj_left.mpr ih)

/-- Filling variables first; the names that this brings in are filled afterwards like the
others. -/
theorem inst_subst (l : String → Option Ty) (ρ σ : Int → Ty) (t : Ty) :
    (t.subst ρ).inst l σ = t.inst l fun i => (ρ i).inst l σ := by
  induction t with
  | absent => simp
  | var id => simp
  | con name args ih =>
    by_cases h : args = []
    · subst h
      simp
    · rw [subst_con, inst_con _ _ (by simpa using h), inst_con _ _ h, List.map_map]
      exact congrArg _ (List.map_inj_left.mpr ih)

/-- Only parameters are filled. -/
theorem inst_var_eq_replace (l : String → Option Ty) (t : Ty) : t.inst l var = t.replace l := by
  rw [← subst_id (t.replace l), subst_replace]
  exact inst_congr (fun c _ => by cases l c <;> simp) fun _ _ => rfl

/-- Where none of the names occurs, only variables are filled. -/
theorem inst_eq_subst {l : String → Option Ty} {σ : Int → Ty} {t : Ty}
    (h : ∀ c ∈ t.consts, l c = none) : t.inst l σ = t.subst σ := by
  induction t with
  | absent => simp
  | var id => simp
  | con name args ih =>
    by_cases ha : args = []
    · subst ha
      simp [h name (by simp)]
    · rw [inst_con _ _ ha, subst_con, List.map_inj_left.mpr]
      intro a hm
      exact ih a hm fun c hc => h c (mem_consts_of_mem hm hc)

theorem replace_eq_self {l : String → Option Ty} {t : Ty} (h : ∀ c ∈ t.consts, l c = none) :
    t.replace l = t := by
  rw [← inst_var_eq_replace, inst_eq_subst h, subst_id]

theorem mem_vars_inst {l : String → Option Ty} {σ : Int → Ty} {t : Ty} {v : Int} :
    v ∈ (t.inst l σ).vars ↔
      (∃ c ∈ t.consts, ∃ u, l c = some u ∧ v ∈ u.vars) ∨ ∃ i ∈ t.vars, v ∈ (σ i).vars := by
  induction t with
  | absent => simp
  | var id => simp
  | con name args ih =>
    by_cases ha : args = []
    · subst ha
      cases hl : l name <;> simp [hl]
    · rw [inst_con _ _ ha, consts_con ha, vars_con, vars_con]
      simp only [List.mem_flatMap, List.mem_map, exists_exists_and_eq_and]
      constructor
      · rintro ⟨b, hb, hv⟩
        rcases (ih b hb).mp hv with ⟨c, hc, u, hu, hv⟩ | ⟨i, hi, hv⟩
        · exact .inl ⟨c, ⟨b, hb, hc⟩, u, hu, hv⟩
        · exact .inr ⟨i, ⟨b, hb, hi⟩, hv⟩
      · rintro (⟨c, ⟨b, hb, hc⟩, u, hu, hv⟩ | ⟨i, ⟨b, hb, hi⟩, hv⟩)
        · exact ⟨b, hb, (ih b hb).mpr (.inl ⟨c, hc, u, hu, hv⟩)⟩
        · exact ⟨b, hb, (ih b hb).mpr (.inr ⟨i, hi, hv⟩)⟩

/-- A constructor of a filled type was not filled, or was filled in. -/
theorem mem_consts_inst {l : String → Option Ty} {σ : Int → Ty} {t : Ty} {c : String} :
    c ∈ (t.inst l σ).consts ↔ (c ∈ t.consts ∧ l c = none) ∨
      (∃ d ∈ t.consts, ∃ u, l d = some u ∧ c ∈ u.consts) ∨ ∃ i ∈ t.vars, c ∈ (σ i).consts := by
  induction t with
  | absent => simp
  | var id => simp
  | con name args ih =>
    by_cases ha : args = []
    · subst ha
      cases hl : l name with
      | none =>
        simp only [inst_con_nil, hl, Option.getD_none, consts_con_nil, List.mem_singleton,
          vars_con, List.flatMap_nil, List.not_mem_nil]
        constructor
        · rintro rfl
          exact .inl ⟨rfl, hl⟩
        · rintro (⟨rfl, _⟩ | ⟨d, rfl, u, hu, _⟩ | ⟨_, hf, _⟩)
          · rfl
          · rw [hl] at hu
            cases hu
          · exact hf.elim
      | some u =>
        simp only [inst_con_nil, hl, Option.getD_some, consts_con_nil, List.mem_singleton,
          vars_con, List.flatMap_nil, List.not_mem_nil]
        constructor
        · exact fun hc => .inr (.inl ⟨name, rfl, u, hl, hc⟩)
        · rintro (⟨rfl, hn⟩ | ⟨d, rfl, v, hv, hc⟩ | ⟨_, hf, _⟩)
          · rw [hl] at hn
            cases hn
          · rw [hl] at hv
            cases hv
            exact hc
          · exact hf.elim
    · rw [inst_con _ _ ha, consts_con ha, consts_con (by simpa using ha), vars_con]
      simp only [List.mem_flatMap, List.mem_map, exists_exists_and_eq_and]
      constructor
      · rintro ⟨b, hb, hc⟩
        rcases (ih b hb).mp hc with ⟨hc, hn⟩ | ⟨d, hd, hu⟩ | ⟨i, hi, hc⟩
        · exact .inl ⟨⟨b, hb, hc⟩, hn⟩
        · exact .inr (.inl ⟨d, ⟨b, hb, hd⟩, hu⟩)
        · exact .inr (.inr ⟨i, ⟨b, hb, hi⟩, hc⟩)
      · rintro (⟨⟨b, hb, hc⟩, hn⟩ | ⟨d, ⟨b, hb, hd⟩, hu⟩ | ⟨i, ⟨b, hb, hi⟩, hc⟩)
        · exact ⟨b, hb, (ih b hb).mpr (.inl ⟨hc, hn⟩)⟩
        · exact ⟨b, hb, (ih b hb).mpr (.inr (.inl ⟨d, hd, hu⟩))⟩
        · exact ⟨b, hb, (ih b hb).mpr (.inr (.inr ⟨i, hi, hc⟩))⟩

end Ty

end Polytype
