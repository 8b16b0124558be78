import Mathlib
import Polytype.Proofs.Ty.Instance

/-!
# Other names for constructors

The parameters of a generic annotation are, inside the function they belong to, constructors without
arguments like all others. `t.rename h` has other names for such constructors; names may fall together.
Two schemes correspond (`Scheme.Renames`) if the instances of the one are those of the other, renamed,
whatever their parameters are called. For an annotation whose parameters get new names both ways of
renaming apply: from the old names to the new (`Scheme.renamed_renameParams`) and back
(`Scheme.renamed_of_renameParams`).
-/

namespace Polytype

namespace Ty

/-! ## Filling parameters twice -/

theorem replace_congr {l m : String → Option Ty} {t : Ty}
    (h : ∀ c ∈ t.consts, (l c).getD (con c []) = (m c).getD (con c [])) :
    t.replace l = t.replace m := by
  induction t with
  | absent => rfl
  | var id => rfl
  | con name args ih =>
    by_cases ha : args = []
    · subst ha
      exact h name (by simp)
    · rw [replace_con l ha, replace_con m ha, List.map_inj_left.mpr]
      intro a hm
      exact ih a hm fun c hc => h c (mem_consts_of_mem hm hc)

theorem replace_replace (l m : String → Option Ty) (t : Ty) :
    (t.replace l).replace m = t.replace fun c => some (((l c).getD (con c [])).replace m) := by
  induction t with
  | absent => rfl
  | var id => rfl
  | con name args ih =>
    by_cases ha : args = []
    · subst ha
      rfl
    · rw [replace_con l ha, replace_con m (by simpa using ha), replace_con _ ha, List.map_map]
      exact congrArg _ (List.map_inj_left.mpr ih)

/-! ## Types -/

/-- The type with other names for its constructors without arguments. -/
def rename (h : String → String) (t : Ty) : Ty := t.replace fun c => some (con (h c) [])

variable (h : String → String)

@[simp] theorem rename_absent : Ty.absent.rename h = .absent := rfl

@[simp] theorem rename_var (id : Int) : (var id).rename h = var id := rfl

@[simp] theorem rename_const (name : String) : (con name []).rename h = con (h name) [] := rfl

theorem rename_con {name : String} {args : List Ty} (ha : args ≠ []) :
    (con name args).rename h = con name (args.map (rename h)) := replace_con _ ha

/-- Only the name changes, and only without arguments. -/
theorem exists_rename_con (name : String) (args : List Ty) : ∃ name',
    (con name args).rename h = con name' (args.map (rename h)) ∧
      name' = if args = [] then h name else name := by
  by_cases ha : args = []
  · subst ha
    exact ⟨h name, rfl, rfl⟩
  · exact ⟨name, rename_con h ha, by rw [if_neg ha]⟩

theorem rename_function (params : List Ty) (result : Ty) :
    (function params result).rename h = function (params.map (rename h)) (result.rename h) := by
  rw [function, function, rename_con h (by simp), List.map_append, List.length_map]
  rfl

theorem rename_array (item : Ty) : (array item).rename h = array (item.rename h) := rfl

theorem rename_eq_absent {t : Ty} : t.rename h = .absent ↔ t = .absent := by
  cases t with
  | absent => simp
  | var id => simp
  | con name args =>
    obtain ⟨name', heq, _⟩ := exists_rename_con h name args
    simp [heq]

theorem vars_rename (t : Ty) : (t.rename h).vars = t.vars := by
  induction t with
  | absent => rfl
  | var id => rfl
  | con name args ih =>
    obtain ⟨name', heq, _⟩ := exists_rename_con h name args
    rw [heq, vars_con, vars_con, List.flatMap_map]
    exact List.flatMap_congr ih

theorem rename_subst (σ : Int → Ty) (t : Ty) :
    (t.subst σ).rename h = (t.rename h).subst fun i => (σ i).rename h := by
  induction t with
  | absent => rfl
  | var id => rfl
  | con name args ih =>
    by_cases ha : args = []
    · subst ha
      simp
    · rw [subst_con, rename_con h (by simpa using ha), rename_con h ha, subst_con, List.map_map,
        List.map_map]
      exact congrArg _ (List.map_inj_left.mpr ih)

theorem rename_rename (k : String → String) (t : Ty) :
    (t.rename h).rename k = t.rename fun c => k (h c) := replace_replace _ _ t

theorem mem_consts_rename {t : Ty} {c : String} :
    c ∈ (t.rename h).consts ↔ ∃ d ∈ t.consts, h d = c := by
  rw [rename, ← inst_var_eq_replace, mem_consts_inst]
  simp [eq_comm]

variable {h}

theorem rename_eq_self {t : Ty} (ht : ∀ c ∈ t.consts, h c = c) : t.rename h = t := by
  have heq : t.replace (fun c => some (con (h c) [])) = t.replace fun _ => none :=
    replace_congr fun c hc => by rw [ht c hc]; rfl
  exact heq.trans (replace_eq_self fun _ _ => rfl)

end Ty

/-! ## Schemes -/

namespace Scheme

variable {h : String → String}

/-- A scheme whose instances are those of another one, renamed. -/
structure Renames (h : String → String) (g g' : Scheme) : Prop where
  length : g'.params.length = g.params.length
  apply_eq : ∀ args : List Ty, args.length = g.params.length →
    g'.apply (args.map (Ty.rename h)) = (g.apply args).rename h

theorem Renames.mono (t : Ty) : Renames h (mono t) (Scheme.mono (t.rename h)) :=
  ⟨rfl, fun args _ => by rw [apply_mono, apply_mono]⟩

/-- A renaming that does not concern the constructors of a scheme. -/
theorem Renames.self {g : Scheme} (hg : ∀ c ∈ g.body.consts, c ∉ g.params → h c = c) :
    Renames h g g := by
  refine ⟨rfl, fun args ha => ?_⟩
  rw [apply, apply, Ty.rename, Ty.replace_replace]
  refine Ty.replace_congr fun c hc => ?_
  rw [argument?_map]
  by_cases hp : c ∈ g.params
  · obtain ⟨a, _, heq⟩ := argument?_isSome ha hp
    rw [heq]
    rfl
  · rw [argument?_of_not_mem hp]
    show Ty.con c [] = Ty.con (h c) []
    rw [hg c hc hp]

theorem Renames.mem_vars {g g' : Scheme} (hg : Renames h g g') {v : Int} :
    v ∈ g'.body.vars ↔ v ∈ g.body.vars := by
  have hclosed : ∀ a ∈ g.params.map (fun _ => Ty.int), a.vars = [] := by simp [Ty.int]
  have hclosed' : ∀ a ∈ (g.params.map fun _ => Ty.int).map (Ty.rename h), a.vars = [] := by
    simp [Ty.int]
  rw [← mem_vars_apply hclosed', hg.apply_eq _ (List.length_map _), Ty.vars_rename,
    mem_vars_apply hclosed]

/-- The scheme is renamed as it stands too, with its parameters as constructors. -/
structure Renamed (h : String → String) (g g' : Scheme) : Prop extends Renames h g g' where
  body : g'.body = g.body.rename h

theorem Renamed.mono (t : Ty) : Renamed h (mono t) (Scheme.mono (t.rename h)) := ⟨.mono t, rfl⟩

theorem Renamed.self {g : Scheme} (hg : ∀ c ∈ g.body.consts, h c = c) : Renamed h g g :=
  ⟨.self fun c hc _ => hg c hc, (Ty.rename_eq_self hg).symm⟩

end Scheme

/-! ## New names for parameters -/

/-- The renaming of each of some names to the one that stands at the same place of other names; of two
names that are the same the later counts. -/
def renameTo (ps qs : List String) (c : String) : String := ((ps.zip qs).reverse.lookup c).getD c

section

variable {ps qs : List String}

theorem lookup_names_of_not_mem {c : String} (hc : c ∉ ps) :
    (ps.zip qs).reverse.lookup c = none := by
  rw [List.lookup_eq_none_iff]
  intro x hx
  rw [bne_iff_ne]
  exact fun he => hc (he ▸ (List.of_mem_zip (List.mem_reverse.mp hx)).1)

theorem renameTo_of_not_mem {c : String} (hc : c ∉ ps) : renameTo ps qs c = c := by
  rw [renameTo, lookup_names_of_not_mem hc]
  rfl

theorem renameTo_cons (p q : String) (hl : qs.length = ps.length) (c : String) :
    renameTo (p :: ps) (q :: qs) c =
      if c ∈ ps then renameTo ps qs c else if c = p then q else c := by
  by_cases hc : c ∈ ps
  · obtain ⟨d, hd⟩ : ∃ d, (ps.zip qs).reverse.lookup c = some d := by
      rw [← Option.isSome_iff_exists, List.lookup_isSome_iff]
      obtain ⟨i, hi, rfl⟩ := List.mem_iff_getElem.mp hc
      refine ⟨(ps[i], qs[i]), List.mem_reverse.mpr ?_, by simp⟩
      exact List.mem_iff_getElem.mpr ⟨i, by simpa [hl] using hi, by simp⟩
    rw [if_pos hc, renameTo, renameTo, List.zip_cons_cons, List.reverse_cons, List.lookup_append, hd]
    rfl
  · rw [if_neg hc, renameTo, List.zip_cons_cons, List.reverse_cons, List.lookup_append,
      lookup_names_of_not_mem hc]
    by_cases hp : c = p
    · simp [hp]
    · have hne : (c == p) = false := by simpa using hp
      simp [List.lookup_cons, hne, hp]

theorem renameTo_mem (hl : qs.length = ps.length) {c : String} (hc : c ∈ ps) :
    renameTo ps qs c ∈ qs := by
  induction ps generalizing qs with
  | nil => cases hc
  | cons p ps ih =>
    cases qs with
    | nil => cases hl
    | cons q qs =>
      rw [renameTo_cons p q (Nat.succ.inj hl)]
      by_cases hm : c ∈ ps
      · rw [if_pos hm]
        exact List.mem_cons_of_mem q (ih (Nat.succ.inj hl) hm)
      · rw [if_neg hm, if_pos ((List.mem_cons.mp hc).resolve_right hm)]
        exact List.mem_cons_self

theorem renameTo_eq_self_iff (hl : qs.length = ps.length)
    (hne : ∀ q ∈ qs, q ∉ ps) (c : String) : renameTo ps qs c = c ↔ c ∉ ps := by
  refine ⟨fun heq hc => ?_, renameTo_of_not_mem⟩
  have hm := renameTo_mem hl hc
  rw [heq] at hm
  exact hne c hm hc

theorem renameTo_idem (hl : qs.length = ps.length) (hne : ∀ q ∈ qs, q ∉ ps)
    (c : String) : renameTo ps qs (renameTo ps qs c) = renameTo ps qs c := by
  by_cases hc : c ∈ ps
  · exact renameTo_of_not_mem (hne _ (renameTo_mem hl hc))
  · rw [renameTo_of_not_mem hc, renameTo_of_not_mem hc]

/-- To rename and to rename back changes nothing. -/
theorem renameTo_renameTo (hd : qs.Nodup) (hl : qs.length = ps.length) {c : String} (hc : c ∈ ps) :
    renameTo qs ps (renameTo ps qs c) = c := by
  induction ps generalizing qs with
  | nil => cases hc
  | cons p ps ih =>
    cases qs with
    | nil => cases hl
    | cons q qs =>
      rw [List.nodup_cons] at hd
      have hl' : qs.length = ps.length := Nat.succ.inj hl
      rw [renameTo_cons p q hl', renameTo_cons q p hl'.symm]
      by_cases hm : c ∈ ps
      · rw [if_pos hm, if_pos (renameTo_mem hl' hm)]
        exact ih hd.2 hl' hm
      · have hp : c = p := (List.mem_cons.mp hc).resolve_right hm
        rw [if_neg hm, if_pos hp, if_neg hd.1, if_pos rfl, hp]

namespace Scheme

/-- The argument of a name is that of the name it is renamed to. -/
theorem argument?_renameTo (hd : qs.Nodup) (hl : qs.length = ps.length) {args : List Ty}
    (ha : args.length = ps.length) {c : String} (hc : c ∈ ps) :
    argument? qs args (renameTo ps qs c) = argument? ps args c := by
  induction ps generalizing qs args with
  | nil => cases hc
  | cons p ps ih =>
    cases qs with
    | nil => cases hl
    | cons q qs =>
      cases args with
      | nil => cases ha
      | cons a args =>
        rw [List.nodup_cons] at hd
        have hl' : qs.length = ps.length := Nat.succ.inj hl
        have ha' : args.length = ps.length := Nat.succ.inj ha
        rw [renameTo_cons p q hl', argument?_cons, argument?_cons]
        by_cases hm : c ∈ ps
        · obtain ⟨u, _, hu⟩ := argument?_isSome ha' hm
          rw [if_pos hm, ih hd.2 hl' ha' hm, hu]
          rfl
        · have hp : c = p := (List.mem_cons.mp hc).resolve_right hm
          rw [if_neg hm, if_pos hp, argument?_of_not_mem hd.1, argument?_of_not_mem hm, hp]
          simp

theorem argument?_names (hl : qs.length = ps.length) {c : String} (hc : c ∈ ps) :
    argument? ps (qs.map fun q => .con q []) c = some (.con (renameTo ps qs c) []) := by
  induction ps generalizing qs with
  | nil => cases hc
  | cons p ps ih =>
    cases qs with
    | nil => cases hl
    | cons q qs =>
      have hl' : qs.length = ps.length := Nat.succ.inj hl
      rw [List.map_cons, argument?_cons, renameTo_cons p q hl']
      by_cases hm : c ∈ ps
      · rw [if_pos hm, ih hl' hm]
        rfl
      · have hp : c = p := (List.mem_cons.mp hc).resolve_right hm
        rw [if_neg hm, if_pos hp, argument?_of_not_mem hm, hp]
        simp

/-- The scheme with other names for its parameters. -/
def renameParams (g : Scheme) (qs : List String) : Scheme :=
  ⟨qs, g.apply (qs.map fun q => .con q [])⟩

variable {g : Scheme}

theorem body_renameParams (hl : qs.length = g.params.length) :
    (g.renameParams qs).body = g.body.rename (renameTo g.params qs) := by
  refine Ty.replace_congr fun c _ => ?_
  by_cases hc : c ∈ g.params
  · rw [argument?_names hl hc]
  · rw [argument?_of_not_mem hc, renameTo_of_not_mem hc]
    rfl

/-- New names for the parameters rename the scheme. -/
theorem renamed_renameParams (hl : qs.length = g.params.length) (hd : qs.Nodup)
    (hnew : ∀ q ∈ qs, q ∉ g.body.consts) :
    Renamed (renameTo g.params qs) g (g.renameParams qs) := by
  refine ⟨⟨hl, fun args ha => ?_⟩, body_renameParams hl⟩
  rw [apply, body_renameParams hl, apply, Ty.rename, Ty.rename, Ty.replace_replace,
    Ty.replace_replace]
  refine Ty.replace_congr fun c hc => ?_
  simp only [Option.getD_some, Ty.replace_con_nil]
  by_cases hp : c ∈ g.params
  · obtain ⟨u, _, hu⟩ := argument?_isSome ha hp
    have hargs : (args.map (Ty.rename (renameTo g.params qs))).length = g.params.length := by
      rw [List.length_map, ha]
    have harg := argument?_renameTo hd hl hargs hp
    rw [argument?_map _ g.params, hu] at harg
    show (argument? qs _ _).getD _ = _
    rw [harg, hu]
    rfl
  · have hq : c ∉ qs := fun hq => hnew c hq hc
    show (argument? qs _ _).getD _ = _
    rw [renameTo_of_not_mem hp, argument?_of_not_mem hq, argument?_of_not_mem hp]
    show Ty.con c [] = Ty.con (renameTo g.params qs c) []
    rw [renameTo_of_not_mem hp]

/-- And the old names rename it back. -/
theorem renamed_of_renameParams (hl : qs.length = g.params.length) (hd : qs.Nodup)
    (hnew : ∀ q ∈ qs, q ∉ g.body.consts) :
    Renamed (renameTo qs g.params) (g.renameParams qs) g := by
  have hback : ∀ c ∈ g.body.consts, renameTo qs g.params (renameTo g.params qs c) = c := by
    intro c hc
    by_cases hp : c ∈ g.params
    · exact renameTo_renameTo hd hl hp
    · rw [renameTo_of_not_mem hp, renameTo_of_not_mem fun hq => hnew c hq hc]
  refine ⟨⟨hl.symm, fun args ha => ?_⟩, ?_⟩
  · have ha' : args.length = g.params.length := ha.trans hl
    rw [apply, apply, body_renameParams hl, Ty.rename, Ty.rename, Ty.replace_replace,
      Ty.replace_replace]
    refine Ty.replace_congr fun c hc => ?_
    simp only [Option.getD_some, Ty.replace_con_nil]
    rw [argument?_map]
    show _ = Ty.replace _ ((argument? qs args _).getD _)
    by_cases hp : c ∈ g.params
    · obtain ⟨u, _, hu⟩ := argument?_isSome ha' hp
      rw [argument?_renameTo hd hl ha' hp, hu]
      rfl
    · have hq : c ∉ qs := fun hq => hnew c hq hc
      rw [renameTo_of_not_mem hp, argument?_of_not_mem hq, argument?_of_not_mem hp]
      show Ty.con c [] = Ty.con (renameTo qs g.params c) []
      rw [renameTo_of_not_mem hq]
  · rw [body_renameParams hl, Ty.rename_rename]
    exact (Ty.rename_eq_self hback).symm

end Scheme

end

end Polytype
