import Mathlib
import Polytype.Proofs.Infer.Instantiation
import Polytype.Proofs.Store.Recursion
import Polytype.Proofs.Ty.Renaming

/-!
# Canonical generic types

A program that is a single variable has the generic type of the variable, but with names of its own for the
parameters: the ones that occur are named anew in the order of their first occurrences, and the others are
dropped. `Scheme.canonical` says this of the generic type alone. `inferGeneric_var_canonical` says that
inference comes to the same by its own way, which is to put new variables in the place of the parameters,
to unify the result with the type expected of the program, to resolve that again, and to name the variables
that are left. So the result does not depend on the names that the parameters had, and is its own canonical
form.

Both ways meet at `Ty.generic`, which names the variables of a type. What a generic type is opened with does
not matter, as long as the variables differ (`Scheme.generic_apply`).
-/

namespace Polytype

/-! ## First occurrences -/

section

variable {α β : Type} [BEq α] [LawfulBEq α] [BEq β] [LawfulBEq β]

theorem eraseDups_concat (l : List α) (a : α) :
    (l ++ [a]).eraseDups = if a ∈ l then l.eraseDups else l.eraseDups ++ [a] := by
  rw [List.eraseDups_append, List.removeAll]
  by_cases h : a ∈ l
  · simp [h]
  · simp [h, List.eraseDups_cons]

theorem nodup_eraseDups (l : List α) : l.eraseDups.Nodup := by
  induction l using List.reverseRecOn with
  | nil => simp
  | append_singleton l a ih =>
    rw [eraseDups_concat]
    split_ifs with ha
    · exact ih
    · exact ih.append (by simp) (by simpa using ha)

theorem eraseDups_map {f : α → β} {l : List α} (hf : ∀ a ∈ l, ∀ b ∈ l, f a = f b → a = b) :
    (l.map f).eraseDups = l.eraseDups.map f := by
  induction l using List.reverseRecOn with
  | nil => simp
  | append_singleton l a ih =>
    have hmem : f a ∈ l.map f ↔ a ∈ l := by
      rw [List.mem_map]
      constructor
      · rintro ⟨b, hb, heq⟩
        rwa [← hf b (by simp [hb]) a (by simp) heq]
      · exact fun ha => ⟨a, ha, rfl⟩
    rw [List.map_append, List.map_singleton, eraseDups_concat, eraseDups_concat,
      ih fun b hb c hc => hf b (by simp [hb]) c (by simp [hc])]
    by_cases ha : a ∈ l
    · rw [if_pos ha, if_pos (hmem.mpr ha)]
    · rw [if_neg ha, if_neg (mt hmem.mp ha), List.map_append, List.map_singleton]

end

theorem firstsNotIn_nil (l : List Int) : firstsNotIn l [] = l.eraseDups := by
  have hall : l.filter (fun v => !([] : List Int).contains v) = l := by simp
  rw [firstsNotIn, hall]
  induction l using List.reverseRecOn with
  | nil => rfl
  | append_singleton l v ih =>
    have hadd : VarSet.empty.addAll (l ++ [v]) = (VarSet.empty.addAll l).add v := by
      simp [VarSet.addAll]
    rw [hadd, VarSet.ids_add, ih (by simp), eraseDups_concat]
    by_cases hv : v ∈ l
    · rw [if_pos hv, if_pos (List.mem_eraseDups.mpr hv)]
    · rw [if_neg hv, if_neg (mt List.mem_eraseDups.mp hv)]

/-! ## Names in order -/

/-- The names of some successive indices, without those that are blocked. -/
def namesFrom (blocked : List String) (first count : Nat) : List String :=
  ((List.range' first count).map fun i : Nat => genericName i).filter (· ∉ blocked)

/-- The first names that are not blocked; as many indices more than names are blocked are enough. -/
def freeNames (blocked : List String) (count : Nat) : List String :=
  (namesFrom blocked 0 (blocked.length + count)).take count

section

variable {blocked : List String} {first count : Nat}

theorem namesFrom_succ_of_mem (h : genericName first ∈ blocked) :
    namesFrom blocked first (count + 1) = namesFrom blocked (first + 1) count := by
  simp [namesFrom, List.range'_succ, h]

theorem namesFrom_succ_of_not_mem (h : genericName first ∉ blocked) :
    namesFrom blocked first (count + 1) =
      genericName first :: namesFrom blocked (first + 1) count := by
  simp [namesFrom, List.range'_succ, h]

/-- The first name belongs to the first index that is not blocked. -/
theorem namesFrom_eq_cons {j : Nat} (hj : first ≤ j) (hfree : genericName j ∉ blocked)
    (hleast : ∀ k, first ≤ k → k < j → genericName k ∈ blocked) (h : namesFrom blocked first count ≠ []) :
    namesFrom blocked first count =
      genericName j :: namesFrom blocked (j + 1) (count - (j + 1 - first)) := by
  induction count generalizing first with
  | zero => exact absurd rfl h
  | succ count ih =>
    rcases Nat.eq_or_lt_of_le hj with rfl | hlt
    · rw [namesFrom_succ_of_not_mem hfree]
      congr 2
      omega
    · have hmem := hleast first le_rfl hlt
      rw [namesFrom_succ_of_mem hmem] at h ⊢
      rw [ih hlt (fun k hk => hleast k (by omega)) h]
      congr 2
      omega

theorem nodup_namesFrom (blocked : List String) (first count : Nat) :
    (namesFrom blocked first count).Nodup := by
  refine List.Nodup.filter _ (List.Nodup.map ?_ List.nodup_range')
  exact fun i j => genericName_injective

/-- Of names with different indices at most as many are blocked as there are blocked names. -/
theorem le_length_namesFrom (blocked : List String) (count : Nat) :
    count ≤ (namesFrom blocked 0 (blocked.length + count)).length := by
  have hnodup : ((List.range' 0 (blocked.length + count)).map fun i : Nat => genericName i).Nodup :=
    List.Nodup.map (fun i j => genericName_injective) List.nodup_range'
  have hsplit := List.length_eq_length_filter_add (l := (List.range' 0 (blocked.length + count)).map
    fun i : Nat => genericName i) (fun n => decide (n ∉ blocked))
  have hsub : ((List.range' 0 (blocked.length + count)).map fun i : Nat => genericName i).filter
      (fun n => !decide (n ∉ blocked)) ⊆ blocked := by
    intro n hn
    simpa using (List.mem_filter.mp hn).2
  have hle := ((hnodup.filter _).subperm hsub).length_le
  rw [List.length_map, List.length_range'] at hsplit
  rw [namesFrom]
  omega

theorem length_freeNames (blocked : List String) (count : Nat) :
    (freeNames blocked count).length = count := by
  rw [freeNames, List.length_take, Nat.min_eq_left (le_length_namesFrom blocked count)]

theorem nodup_freeNames (blocked : List String) (count : Nat) : (freeNames blocked count).Nodup :=
  (nodup_namesFrom _ _ _).sublist (List.take_sublist _ _)

theorem not_mem_of_mem_freeNames {n : String} (h : n ∈ freeNames blocked count) : n ∉ blocked := by
  simpa using (List.mem_filter.mp (List.mem_of_mem_take h)).2

end

/-- Variables get the first names that are not set aside and are no constructors of the type. -/
theorem nameAll_fst {t : Ty} {ids : List Int} {supply : NameSupply} {s : Store} {count : Nat}
    (h : ids.length ≤ (namesFrom (supply.taken ++ t.names) supply.next count).length) :
    (nameAll t ids supply s).1 =
      (namesFrom (supply.taken ++ t.names) supply.next count).take ids.length := by
  induction ids generalizing supply s count with
  | nil => rw [List.length_nil, List.take_zero, nameAll]
  | cons id ids ih =>
    -- what is taken is the least free index, and this is what comes first among the names that are left
    obtain ⟨j, hj, htake, hfree, hleast⟩ : ∃ j : Nat, supply.next ≤ j ∧
        supply.takeAvoiding t = (genericName j, { supply with next := j + 1 }) ∧
        genericName j ∉ supply.taken ++ t.names ∧
        ∀ k, supply.next ≤ k → k < j → genericName k ∈ supply.taken ++ t.names :=
      ⟨_, NameSupply.le_firstFree _ _ _, rfl, NameSupply.firstFree_not_mem _ _,
        fun k hk hlt => NameSupply.mem_of_lt_firstFree hk hlt⟩
    have hne : namesFrom (supply.taken ++ t.names) supply.next count ≠ [] := by
      rintro heq
      rw [heq] at h
      simp at h
    rw [namesFrom_eq_cons hj hfree hleast hne] at h ⊢
    rw [nameAll, htake, List.length_cons, List.take_succ_cons]
    simp only [List.length_cons, Nat.add_le_add_iff_right] at h
    exact congrArg (genericName j :: ·) (@ih { supply with next := j + 1 } _ _ h)

/-! ## Naming the variables of a type -/

/-- A type with names for its variables, in the order of their first occurrences. -/
def Ty.generic (t : Ty) : Scheme :=
  ⟨freeNames t.names t.vars.eraseDups.length,
    t.subst (named t.vars.eraseDups (freeNames t.names t.vars.eraseDups.length))⟩

theorem Ty.params_generic_eq_nil {t : Ty} : t.generic.params = [] ↔ t.vars = [] := by
  rw [← List.length_eq_zero_iff, show t.generic.params.length = _ from length_freeNames _ _,
    List.length_eq_zero_iff]
  simp only [List.eq_nil_iff_forall_not_mem, List.mem_eraseDups]

/-- Closing a type of a program in an environment without variables names all its variables. -/
theorem Closes.eq_generic {s : Store} {env : Env} {t : Ty} {g : Scheme} {store? : Option Store}
    (h : Closes s env t .absent g store?) (ho : ∀ v ∈ (s.resolve t).vars, s.owns v = true)
    (henv : env.All fun g => g.body.vars = []) : g = (s.resolve t).generic := by
  have hids : s.generalizable env t = (s.resolve t).vars.eraseDups := by
    rw [Store.generalizable_of_owns ho, Env.varsUnder_closed henv, firstsNotIn_nil]
  have hparams : g.params = freeNames (s.resolve t).names (s.resolve t).vars.eraseDups.length := by
    rw [h.chosen, hids]
    exact nameAll_fst (le_length_namesFrom _ _)
  have hbody := h.body
  rw [hids, hparams] at hbody
  obtain ⟨params, body⟩ := g
  simp only at hparams hbody
  rw [Ty.generic, hparams, hbody]

/-! ## Canonical forms -/

namespace Scheme

/-- The parameters that occur in a scheme, in the order of their first occurrences. -/
def used (g : Scheme) : List String := (g.body.consts.filter (· ∈ g.params)).eraseDups

/-- The type of a scheme without its parameters, which are missing parts of it. -/
def frame (g : Scheme) : Ty := g.apply (g.params.map fun _ => .absent)

/-- The scheme with the first generated names, in order, for the parameters that occur in it. A name is
left out if a constructor that is no parameter has it. -/
def canonical (g : Scheme) : Scheme :=
  (⟨g.used, g.body⟩ : Scheme).renameParams (freeNames g.frame.names g.used.length)

theorem length_params_canonical (g : Scheme) : g.canonical.params.length = g.used.length :=
  length_freeNames _ _

theorem mem_used {g : Scheme} {p : String} : p ∈ g.used ↔ p ∈ g.body.consts ∧ p ∈ g.params := by
  rw [used, List.mem_eraseDups, List.mem_filter, decide_eq_true_iff]

theorem nodup_used (g : Scheme) : g.used.Nodup := nodup_eraseDups _

/-- The arguments of parameters that are given by a function of their names. -/
theorem argument?_map_self (f : String → Ty) (ps : List String) (c : String) :
    argument? ps (ps.map f) c = if c ∈ ps then some (f c) else none := by
  induction ps with
  | nil => rfl
  | cons p ps ih =>
    rw [List.map_cons, argument?_cons, ih]
    by_cases hc : c ∈ ps
    · simp [hc]
    · by_cases hp : c = p
      · subst hp
        simp [hc]
      · simp [hc, hp]

theorem apply_map (g : Scheme) (f : String → Ty) :
    g.apply (g.params.map f) = g.body.replace fun c => if c ∈ g.params then some (f c) else none :=
  congrArg g.body.replace (funext (argument?_map_self f g.params))

end Scheme

/-- The variables that stand for parameters are in the order in which the parameters are. -/
theorem Ty.vars_replace_var {t : Ty} (ht : t.vars = []) (ps : List String) (v : String → Int) :
    (t.replace fun c => if c ∈ ps then some (.var (v c)) else none).vars =
      (t.consts.filter (· ∈ ps)).map v := by
  induction t with
  | absent => rfl
  | var id => simp at ht
  | con name args ih =>
    by_cases ha : args = []
    · subst ha
      rw [replace_con_nil, consts_con_nil]
      by_cases hn : name ∈ ps
      · simp [hn]
      · simp [hn]
    · rw [vars_con, List.flatMap_eq_nil_iff] at ht
      rw [replace_con _ ha, vars_con, consts_con ha, List.flatMap_map, List.filter_flatMap,
        List.map_flatMap]
      exact List.flatMap_congr fun a ham => ih a ham (ht a ham)

/-- The constructors of a type in which constants were replaced depend on those of the replacements. -/
theorem Ty.names_replace {l m : String → Option Ty} (h : ∀ c, (l c).map names = (m c).map names)
    (t : Ty) : (t.replace l).names = (t.replace m).names := by
  induction t with
  | absent => rfl
  | var id => rfl
  | con name args ih =>
    by_cases ha : args = []
    · subst ha
      have hname := h name
      rw [replace_con_nil, replace_con_nil]
      cases hl : l name with
      | none =>
        rw [hl, Option.map_none, eq_comm, Option.map_eq_none_iff] at hname
        rw [hname]
      | some u =>
        rw [hl, Option.map_some, eq_comm, Option.map_eq_some_iff] at hname
        obtain ⟨w, hw, heq⟩ := hname
        rw [hw]
        exact heq.symm
    · rw [replace_con _ ha, replace_con _ ha, names_con, names_con, List.flatMap_map, List.flatMap_map]
      exact congrArg (name :: ·) (List.flatMap_congr ih)

/-- A variable that stands for a parameter is named like the parameter is renamed. -/
theorem named_map {ps qs : List String} (hl : qs.length = ps.length) (hd : ps.Nodup) {v : String → Int}
    {c : String} (hv : ∀ p ∈ ps, v c = v p → c = p) (hc : c ∈ ps) :
    named (ps.map v) qs (v c) = .con (renameTo ps qs c) [] := by
  induction ps generalizing qs with
  | nil => cases hc
  | cons p ps ih =>
    cases qs with
    | nil => cases hl
    | cons q qs =>
      rw [List.nodup_cons] at hd
      rw [List.forall_mem_cons] at hv
      rw [List.map_cons, named_cons, renameTo_cons p q (Nat.succ.inj hl)]
      by_cases hp : c = p
      · subst hp
        rw [if_pos rfl, if_neg hd.1, if_pos rfl]
      · have hm : c ∈ ps := (List.mem_cons.mp hc).resolve_left hp
        rw [if_neg (mt hv.1 hp), if_pos hm]
        exact ih (Nat.succ.inj hl) hd.2 hv.2 hm

namespace Scheme

variable {g : Scheme}

/-- To open a scheme by different variables, and to name them again, gives its canonical form. -/
theorem generic_apply (hc : g.body.vars = []) {v : String → Int} (hd : (g.params.map v).Nodup) :
    (g.apply (g.params.map fun p => .var (v p))).generic = g.canonical := by
  have hinj : ∀ a ∈ g.params, ∀ b ∈ g.params, v a = v b → a = b := List.inj_on_of_nodup_map hd
  have hused : ∀ a ∈ g.used, ∀ b ∈ g.used, v a = v b → a = b := fun a ha b hb =>
    hinj a (mem_used.mp ha).2 b (mem_used.mp hb).2
  have hvars : (g.apply (g.params.map fun p => .var (v p))).vars.eraseDups = g.used.map v := by
    rw [apply_map, Ty.vars_replace_var hc, used, eraseDups_map]
    intro a ha b hb
    simp only [List.mem_filter, decide_eq_true_iff] at ha hb
    exact hinj a ha.2 b hb.2
  have hnames : (g.apply (g.params.map fun p => .var (v p))).names = g.frame.names := by
    rw [frame, apply_map, apply_map]
    refine Ty.names_replace (fun c => ?_) _
    by_cases hp : c ∈ g.params
    · simp [hp]
    · simp [hp]
  -- the new names are the same; what is left is that each parameter that occurs gets the same one
  rw [Ty.generic, hvars, hnames, List.length_map, canonical, renameParams, Scheme.mk.injEq]
  refine ⟨rfl, ?_⟩
  have hlength := length_freeNames g.frame.names g.used.length
  generalize freeNames g.frame.names g.used.length = names at hlength
  rw [apply_map, Ty.subst_replace, apply, ← Ty.inst_var_eq_replace]
  refine Ty.inst_congr (fun c hcm => ?_) (by simp [hc])
  by_cases hp : c ∈ g.params
  · have hcu : c ∈ g.used := mem_used.mpr ⟨hcm, hp⟩
    rw [if_pos hp, Option.map_some, Ty.subst_var, argument?_names hlength hcu,
      named_map hlength g.nodup_used (hused c hcu) hcu]
  · rw [if_neg hp, argument?_of_not_mem fun hm => hp (mem_used.mp hm).2]
    rfl

/-- The instance of a scheme with the variables `1`, `2` and so on. -/
def opened (g : Scheme) : Ty := g.apply ((List.range g.params.length).map fun k : Nat => .var (1 + k))

theorem opened_eq_map (hd : g.params.Nodup) :
    g.opened = g.apply (g.params.map fun p => .var (1 + g.params.idxOf p)) := by
  rw [opened, ← map_idxOf hd, List.map_map]
  rfl

/-- Different names have different numbers. -/
theorem nodup_numbers {ps : List String} (hd : ps.Nodup) :
    (ps.map fun p => (1 + ps.idxOf p : Int)).Nodup := by
  have hmap : ps.map (fun p => (1 + ps.idxOf p : Int)) =
      (List.range ps.length).map fun k : Nat => (1 + k : Int) := by
    rw [← map_idxOf hd, List.map_map]
    rfl
  rw [hmap]
  exact List.nodup_range.map fun a b h => by simpa using h

theorem generic_opened (hc : g.body.vars = []) (hd : g.params.Nodup) :
    g.opened.generic = g.canonical := by
  rw [opened_eq_map hd]
  exact generic_apply hc (nodup_numbers hd)

theorem mem_vars_opened (hc : g.body.vars = []) (hd : g.params.Nodup) {i : Int}
    (hi : i ∈ g.opened.vars) : 0 < i ∧ i < 1 + g.params.length := by
  rw [opened_eq_map hd, apply_map, Ty.vars_replace_var hc] at hi
  obtain ⟨p, hp, rfl⟩ := List.mem_map.mp hi
  have hlt := List.idxOf_lt_length_of_mem (of_decide_eq_true (List.mem_filter.mp hp).2)
  omega

/-- Parameters that do not occur make no difference. -/
theorem canonical_used (hc : g.body.vars = []) (hd : g.params.Nodup) :
    (⟨g.used, g.body⟩ : Scheme).canonical = g.canonical := by
  have hinj := List.inj_on_of_nodup_map (nodup_numbers hd)
  have hnumbers : (g.used.map fun p => (1 + g.params.idxOf p : Int)).Nodup :=
    List.Nodup.map_on (fun a ha b hb => hinj (mem_used.mp ha).2 (mem_used.mp hb).2) g.nodup_used
  rw [← generic_opened hc hd, opened_eq_map hd, ← @generic_apply ⟨g.used, g.body⟩ hc _ hnumbers,
    apply_map, apply_map]
  refine congrArg Ty.generic (Ty.replace_congr fun c hcm => ?_)
  have hiff : c ∈ g.used ↔ c ∈ g.params := by
    rw [mem_used]
    exact ⟨fun h => h.2, fun h => ⟨hcm, h⟩⟩
  simp only [hiff]

section

variable {qs : List String}

/-- With other names for its parameters a scheme has the same instances, if no constructor is taken for a
parameter. -/
theorem apply_renameParams (hl : qs.length = g.params.length) (hd : qs.Nodup)
    (hnew : ∀ q ∈ qs, q ∈ g.body.consts → q ∈ g.params) {args : List Ty}
    (ha : args.length = g.params.length) : (g.renameParams qs).apply args = g.apply args := by
  rw [apply, body_renameParams hl, Ty.rename, Ty.replace_replace, apply]
  refine Ty.replace_congr fun c hc => ?_
  simp only [Option.getD_some, Ty.replace_con_nil]
  show (argument? qs args _).getD _ = _
  by_cases hp : c ∈ g.params
  · obtain ⟨u, _, hu⟩ := argument?_isSome ha hp
    rw [argument?_renameTo hd hl ha hp, hu]
    rfl
  · rw [renameTo_of_not_mem hp, argument?_of_not_mem fun hq => hp (hnew c hq hc),
      argument?_of_not_mem hp]

theorem vars_renameParams (hc : g.body.vars = []) (qs : List String) :
    (g.renameParams qs).body.vars = [] := by
  refine List.eq_nil_iff_forall_not_mem.mpr fun v hv => ?_
  rw [renameParams, mem_vars_apply (by simp), hc] at hv
  cases hv

/-- The canonical form does not depend on the names of the parameters. -/
theorem canonical_renameParams (hc : g.body.vars = []) (hp : g.params.Nodup)
    (hl : qs.length = g.params.length) (hd : qs.Nodup)
    (hnew : ∀ q ∈ qs, q ∈ g.body.consts → q ∈ g.params) :
    (g.renameParams qs).canonical = g.canonical := by
  have hopened : (g.renameParams qs).opened = g.opened := by
    rw [opened, show (g.renameParams qs).params = qs from rfl, hl]
    exact apply_renameParams hl hd hnew (by simp)
  rw [← generic_opened hc hp, ← hopened]
  exact (generic_opened (vars_renameParams hc qs) hd).symm

end

/-- A canonical form is its own canonical form. -/
theorem canonical_canonical (hc : g.body.vars = []) (hp : g.params.Nodup) :
    g.canonical.canonical = g.canonical := by
  -- a new name may be that of a parameter, but not of another constructor
  have hnew : ∀ q ∈ freeNames g.frame.names g.used.length, q ∈ g.body.consts → q ∈ g.used := by
    intro q hq hqc
    by_contra hqu
    have hqp : q ∉ g.params := fun h => hqu (mem_used.mpr ⟨hqc, h⟩)
    refine not_mem_of_mem_freeNames hq (Ty.names_of_consts ?_)
    rw [frame, ← applyUnder_eq_apply fun _ _ => rfl, applyUnder, Ty.mem_consts_inst]
    exact .inl ⟨hqc, argument?_of_not_mem hqp⟩
  calc g.canonical.canonical
      = (⟨g.used, g.body⟩ : Scheme).canonical :=
        canonical_renameParams hc g.nodup_used (length_freeNames _ _) (nodup_freeNames _ _) hnew
    _ = g.canonical := canonical_used hc hp

end Scheme

/-! ## The type of a variable -/

namespace Store

section

variable {s : Store} {i : Int} {t : Ty}

/-- A type of unbound variables is resolved already. -/
theorem resolve_of_unbound (ht : ∀ v ∈ t.vars, s.binding? v = none) : s.resolve t = t := by
  rw [resolve_eq_subst]
  exact Ty.subst_eq_self fun v hv => resolve_free (ht v hv)

variable (hs : s.Acyclic) (hi : s.owns i = true) (hb : s.binding? i = none)
  (ht : ∀ v ∈ t.vars, s.owns v = true ∧ s.binding? v = none) (hne : i ∉ t.vars)

include hs hi hb ht hne

/-- An unbound variable is bound to a type of other unbound variables. -/
theorem unify_unbound : s.unify (.var i) t = (s.bind i t, none) := by
  have hoccurs : s.occurs i t = false := by
    rw [← Bool.not_eq_true, occurs_iff, resolve_of_unbound fun v hv => (ht v hv).2]
    exact hne
  have hbind : s.bindVar i t = (s.bind i t, none) := by simp [bindVar_eq hi, hoccurs]
  rw [hs.unify_eq, find_free hb]
  cases t with
  | absent => simpa [meet, hi] using hbind
  | con n as => simpa [meet, hi] using hbind
  | var j =>
    obtain ⟨hj, hbj⟩ := ht j (by simp)
    have hij : i ≠ j := by simpa using hne
    rw [find_free hbj]
    simpa [meet, hi, hj, hij] using hbind

/-- The variable stands for the type then. -/
theorem resolve_bind_unbound : (s.bind i t).resolve (.var i) = t := by
  have hacyclic : (s.bind i t).Acyclic := by
    have h := unify_acyclic hs (.var i) t
    rwa [unify_unbound hs hi hb ht hne] at h
  have hself : t ≠ .var i := by
    rintro rfl
    simp at hne
  rw [resolve_bound hacyclic (binding?_bind_self hi hself)]
  refine resolve_of_unbound fun v hv => ?_
  have hvi : v ≠ i := fun heq => hne (heq ▸ hv)
  rw [binding?_bind_of_ne t hvi, (ht v hv).2]

end

end Store

section

variable {env : Env} {x : String} {g : Scheme}

/-- In a store with one variable more than the scheme has parameters, all unbound, the first one comes to
stand for the instance. -/
theorem Scheme.unify_opened (hc : g.body.vars = []) (hd : g.params.Nodup) {s : Store} (hs : s.Acyclic)
    (hsize : s.size = 1 + g.params.length) (hfree : ∀ i, s.binding? i = none) :
    ∃ s', s.unify (.var 0) g.opened = (s', none) ∧ s'.resolve (.var 0) = g.opened ∧ s'.Acyclic ∧
      ∀ i ∈ g.opened.vars, s'.owns i = true ∧ s'.binding? i = none := by
  have hvars : ∀ i ∈ g.opened.vars, s.owns i = true ∧ s.binding? i = none := by
    intro i hi
    have := mem_vars_opened hc hd hi
    exact ⟨Store.owns_iff.mpr (by omega), hfree i⟩
  have hroot : s.owns 0 = true := Store.owns_iff.mpr (by omega)
  have hne : (0 : Int) ∉ g.opened.vars := fun h => absurd (mem_vars_opened hc hd h).1 (lt_irrefl _)
  have hunify := Store.unify_unbound hs hroot (hfree 0) hvars hne
  refine ⟨s.bind 0 g.opened, hunify, Store.resolve_bind_unbound hs hroot (hfree 0) hvars hne, ?_, ?_⟩
  · have h := Store.unify_acyclic hs (.var 0) g.opened
    rwa [hunify] at h
  · intro i hi
    have hi0 : i ≠ 0 := fun h => hne (h ▸ hi)
    rw [Store.owns_bind, Store.binding?_bind_of_ne g.opened hi0]
    exact hvars i hi

/-- The type of a program that is a variable is the instance of its scheme. -/
theorem inferRoot_var (hx : env.lookup? x = some (some g)) (hc : g.body.vars = [])
    (hd : g.params.Nodup) (ty : Ty) :
    ∃ (typed : Expr) (run : Run), (inferRoot env (.var x none ty)).Yields .start (typed, g.opened) run ∧
      run.store.Acyclic ∧
      ∀ i ∈ g.opened.vars, run.store.owns i = true ∧ run.store.binding? i = none := by
  -- The variable of the program comes first, the variables of the instance follow.
  obtain ⟨run, hstore, hqueue, hinfer⟩ : ∃ run : Run,
      run.store = (Store.freshList g.params.length (Store.freshList 1 .empty).2).2 ∧
      run.queue.toList = [⟨.var 0, g.opened, .var x none (.var 0)⟩] ∧
      (infer env (.var 0) (.var x none ty)).Yields (Run.start.alloc 1) (.var x none (.var 0)) run := by
    refine ⟨_, rfl, ?_, infer_var.mpr ⟨g, _, hx, by simp, unifyTypeArgs_nil.mpr rfl, rfl, rfl⟩⟩
    rw [Store.freshList_fst]
    rfl
  have hacyclic : run.store.Acyclic := hstore ▸ (Store.acyclic_empty.freshList 1).freshList _
  have hsize : run.store.size = 1 + g.params.length := by
    rw [hstore, Store.size_freshList, Store.size_freshList]
    rfl
  have hfree : ∀ i, run.store.binding? i = none := by
    intro i
    rw [hstore, Store.binding?_freshList, Store.binding?_freshList, Store.binding?_empty]
  obtain ⟨s, hunify, hresolve, hs, hvars⟩ := Scheme.unify_opened hc hd hacyclic hsize hfree
  have hsolve : Queue.solveList run.store run.queue.toList = (s, none) := by
    rw [hqueue, Queue.solveList, Traversals.unify_eq, hunify]
    rfl
  refine ⟨Expr.mapTypes s.resolve (.var x none (.var 0)), run.solved s, ?_, hs, hvars⟩
  refine inferRoot_yields.mpr ⟨_, run, hinfer, InferM.yields_solve.mpr ?_, Prod.ext rfl hresolve.symm⟩
  rw [hsolve]
  exact ⟨rfl, rfl⟩

theorem inferGeneric_var (henv : env.All fun g => g.body.vars = [])
    (hx : env.lookup? x = some (some g)) (hd : g.params.Nodup)
    (hp : env.Present ∨ g.canonical.params = []) (ty : Ty) :
    (Context.new.inferGeneric (.var x none ty) (some env)).1.result = .ok g.canonical := by
  have hc := henv x g hx
  obtain ⟨typed, run, hroot, hacyclic, hvars⟩ := inferRoot_var hx hc hd ty
  have hresolve : run.store.resolve g.opened = g.opened :=
    Store.resolve_of_unbound fun v hv => (hvars v hv).2
  obtain ⟨⟨g', store?⟩, hclose⟩ : ∃ r, closing run.store env g.opened .absent = .ok r := by
    -- without variables to name the environment is not looked at
    refine closing_isOk.mpr (hp.symm.imp_left fun hnil => ?_)
    rw [← Scheme.generic_opened hc hd, Ty.params_generic_eq_nil] at hnil
    rw [List.isEmpty_iff, List.eq_nil_iff_forall_not_mem]
    intro v hv
    rw [hresolve, Store.mem_free, hresolve, hnil] at hv
    cases hv.1
  have heq := (closing_closes hacyclic hclose).eq_generic
    (by rw [hresolve]; exact fun v hv => (hvars v hv).1) henv
  rw [hresolve, Scheme.generic_opened hc hd] at heq
  exact inferGeneric_result.mpr ⟨rfl, typed, _, run, store?, hroot, heq ▸ hclose⟩

/-- A program that is a variable has the canonical form of the variable's generic type, whatever the
parameters are called, and a canonical form stays as it is. Only if the type has parameters to name are the
other names of the environment looked at, and these must then have a type. -/
theorem inferGeneric_var_canonical (henv : env.All fun g => g.body.vars = [])
    (hx : env.lookup? x = some (some g)) (hd : g.params.Nodup) (hp : env.Present ∨ g.used = []) (ty : Ty) :
    (Context.new.inferGeneric (.var x none ty) (some env)).1.result = .ok g.canonical ∧
    (∀ qs : List String, qs.length = g.params.length → qs.Nodup →
      (∀ q ∈ qs, q ∈ g.body.consts → q ∈ g.params) →
      (Context.new.inferGeneric (.var x none ty) (some (env.extend x (some (g.renameParams qs))))).1.result =
        .ok g.canonical) ∧
    (Context.new.inferGeneric (.var x none ty) (some (env.extend x (some g.canonical)))).1.result =
      .ok g.canonical := by
  have hc := henv x g hx
  have hp' : env.Present ∨ g.canonical.params = [] :=
    hp.imp_right fun hu => List.eq_nil_of_length_eq_zero (by rw [Scheme.length_params_canonical, hu]; rfl)
  have hrebound : ∀ g' : Scheme, g'.body.vars = [] → g'.params.Nodup → g'.canonical = g.canonical →
      (Context.new.inferGeneric (.var x none ty) (some (env.extend x (some g')))).1.result =
        .ok g.canonical := by
    intro g' hc' hd' heq
    rw [← heq]
    refine inferGeneric_var (henv.extend hc') ?_ hd' ?_ ty
    · rw [Env.lookup?_extend, if_pos rfl]
    · rw [heq]
      exact hp'.imp_left fun hpres => hpres.extend x g'
  refine ⟨inferGeneric_var henv hx hd hp' ty, fun qs hl hqs hnew => ?_, ?_⟩
  · exact hrebound _ (Scheme.vars_renameParams hc qs) hqs
      (Scheme.canonical_renameParams hc hd hl hqs hnew)
  · exact hrebound _ (@Scheme.vars_renameParams ⟨g.used, g.body⟩ hc _) (nodup_freeNames _ _)
      (Scheme.canonical_canonical hc hd)

end

/-- A function type over the parameters `B`, `A` and `C`, in which `A` is a constructor with arguments too
and `C` does not occur. -/
def crossed : Scheme :=
  ⟨["C", "B", "A"], .con "->" [.con "B" [], .con "A" [.con "A" [], .con "B" []]]⟩

-- The name `A` is left out, since the constructor keeps it; a renaming may exchange the parameters.
theorem inferGeneric_crossed_canonical :
    let env := Env.empty.extend "f" (some crossed)
    let canonical : Scheme := ⟨["B", "C"], .con "->" [.con "B" [], .con "A" [.con "C" [], .con "B" []]]⟩
    (env.All fun g => g.body.vars = []) ∧ env.lookup? "f" = some (some crossed) ∧ crossed.params.Nodup ∧
    env.Present ∧
    (Context.new.inferGeneric (.var "f" none .absent) (some env)).1.result = .ok canonical ∧
    (Context.new.inferGeneric (.var "f" none .absent)
      (some (env.extend "f" (some (crossed.renameParams ["D", "A", "B"]))))).1.result = .ok canonical := by
  intro env canonical
  have henv : env.All fun g => g.body.vars = [] := Env.All.empty.extend (by decide)
  have hlookup : env.lookup? "f" = some (some crossed) := by rw [Env.lookup?_extend, if_pos rfl]
  have hpresent : env.Present := Env.Present.extend (by simp [Env.Present]) _ _
  have hcanonical : crossed.canonical = canonical := by decide +kernel
  obtain ⟨hresult, hrenamed, _⟩ :=
    inferGeneric_var_canonical henv hlookup (by decide) (.inl hpresent) .absent
  rw [hcanonical] at hresult hrenamed
  exact ⟨henv, hlookup, by decide, hpresent, hresult,
    hrenamed ["D", "A", "B"] (by decide) (by decide) (by decide)⟩

/-- A name without a type stops the inference of a variable that has one. -/
theorem inferGeneric_var_beside_missing :
    let env := (Env.empty.extend "x" (some ⟨["T"], .con "T" []⟩)).extend "y" none
    (env.All fun g => g.body.vars = []) ∧ env.lookup? "x" = some (some ⟨["T"], .con "T" []⟩) ∧
    (Context.new.inferGeneric (.var "x" none .absent) (some env)).1.result =
      .error (.fault .missingScheme) := by
  intro env
  have hlookup : ∀ z, env.lookup? z = if "y" = z then some none else
      if "x" = z then some (some ⟨["T"], .con "T" []⟩) else none := by
    intro z
    rw [Env.lookup?_extend, Env.lookup?_extend, Env.lookup?_empty]
  refine ⟨fun z g hz => ?_, ?_, by decide +kernel⟩
  · rw [hlookup] at hz
    split_ifs at hz
    · simp at hz
    · cases hz
      rfl
  · rw [hlookup, if_neg (by decide), if_pos rfl]

end Polytype
