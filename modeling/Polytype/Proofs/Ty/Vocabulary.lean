import Mathlib
import Polytype.Proofs.Ty.Instance

/-!
# What types are made of

A run of inference is kept within bounds by what may stand at the leaves of its types: a missing part,
a variable, a constructor without arguments. A `Vocabulary` says which of these are allowed, and
`t.Over V n` that all leaves of `t` are, its variables being among the first `n` unless others are
allowed too. The lemmas carry the property through every operation that inference applies to types.
-/

namespace Polytype

namespace Ty

/-- No part of the type is missing. -/
def Whole : Ty → Prop
  | absent => False
  | var _ => True
  | con _ args => wholeArgs args
where
  /-- No part of the arguments is missing. -/
  wholeArgs : List Ty → Prop
    | [] => True
    | a :: as => Whole a ∧ wholeArgs as

@[simp] theorem not_whole_absent : ¬ Ty.absent.Whole := by
  rw [Whole]
  exact not_false

@[simp] theorem whole_var (id : Int) : (var id).Whole := by rw [Whole]; trivial

theorem wholeArgs_iff (args : List Ty) : Whole.wholeArgs args ↔ ∀ a ∈ args, a.Whole := by
  induction args with
  | nil => simp [Whole.wholeArgs]
  | cons a as ih => rw [Whole.wholeArgs, ih, List.forall_mem_cons]

@[simp] theorem whole_con (name : String) (args : List Ty) :
    (con name args).Whole ↔ ∀ a ∈ args, a.Whole := by
  rw [Whole, wholeArgs_iff]

theorem Whole.subst {σ : Int → Ty} {t : Ty} (ht : t.Whole) (hσ : ∀ i ∈ t.vars, (σ i).Whole) :
    (t.subst σ).Whole := by
  induction t with
  | absent => exact absurd ht not_whole_absent
  | var id => exact hσ id (by simp)
  | con name args ih =>
    rw [whole_con] at ht
    rw [subst_con, whole_con]
    intro b hb
    obtain ⟨a, ha, rfl⟩ := List.mem_map.mp hb
    refine ih a ha (ht a ha) fun i hi => hσ i ?_
    rw [vars_con]
    exact List.mem_flatMap.mpr ⟨a, ha, hi⟩

theorem Whole.inst {l : String → Option Ty} {σ : Int → Ty} {t : Ty} (ht : t.Whole)
    (hl : ∀ c u, l c = some u → u.Whole) (hσ : ∀ i ∈ t.vars, (σ i).Whole) :
    (t.inst l σ).Whole := by
  induction t with
  | absent => exact absurd ht not_whole_absent
  | var id => simpa using hσ id (by simp)
  | con name args ih =>
    by_cases ha : args = []
    · subst ha
      rw [inst_con_nil]
      cases hn : l name with
      | none => simp
      | some u => exact hl name u hn
    · rw [whole_con] at ht
      rw [inst_con _ _ ha, whole_con]
      intro b hb
      obtain ⟨a, ham, rfl⟩ := List.mem_map.mp hb
      refine ih a ham (ht a ham) fun i hi => hσ i ?_
      rw [vars_con]
      exact List.mem_flatMap.mpr ⟨a, ham, hi⟩

end Ty

/-- What may stand at the leaves of types; the types of literals always may. -/
structure Vocabulary where
  /-- Parts may be missing. -/
  gaps : Prop
  /-- Variables may be others than those of the store. -/
  strays : Prop
  /-- The constructors without arguments. -/
  consts : String → Prop
  int : consts "Int"
  string : consts "String"

/-- All leaves are allowed but the variables of others. -/
def Vocabulary.all : Vocabulary := ⟨True, False, fun _ => True, trivial, trivial⟩

/-- All leaves are allowed but missing ones and the variables of others. -/
def Vocabulary.whole : Vocabulary := ⟨False, False, fun _ => True, trivial, trivial⟩

/-- The vocabulary with more constructors. -/
def Vocabulary.and (V : Vocabulary) (names : List String) : Vocabulary :=
  ⟨V.gaps, V.strays, fun c => V.consts c ∨ c ∈ names, .inl V.int, .inl V.string⟩

/-- All leaves of a type are in a vocabulary, where the store has the first `n` variables. -/
structure Ty.Over (V : Vocabulary) (n : Nat) (t : Ty) : Prop where
  whole : ¬ V.gaps → t.Whole
  vars : ¬ V.strays → ∀ i ∈ t.vars, 0 ≤ i ∧ i < n
  consts : ∀ c ∈ t.consts, V.consts c

namespace Ty.Over

variable {V : Vocabulary} {n m : Nat} {t : Ty}

theorem mono (h : t.Over V n) (hnm : n ≤ m) : t.Over V m :=
  ⟨h.whole, fun hv i hi => ⟨(h.vars hv i hi).1, by have := (h.vars hv i hi).2; omega⟩, h.consts⟩

theorem var {i : Int} (h0 : 0 ≤ i) (hi : i < n) : (Ty.var i).Over V n := by
  refine ⟨fun _ => whole_var i, ?_, by simp⟩
  intro _ j hj
  rw [vars_var, List.mem_singleton] at hj
  subst hj
  exact ⟨h0, hi⟩

/-- A variable of a type in a vocabulary is in it. -/
theorem var_of_mem (h : t.Over V n) {i : Int} (hi : i ∈ t.vars) : (Ty.var i).Over V n := by
  refine ⟨fun _ => whole_var i, ?_, by simp⟩
  intro hv j hj
  rw [vars_var, List.mem_singleton] at hj
  subst hj
  exact h.vars hv j hi

theorem const {c : String} (hc : V.consts c) : (Ty.con c []).Over V n :=
  ⟨by simp, by simp, by simpa using hc⟩

theorem con {c : String} {args : List Ty} (hne : args ≠ []) (h : ∀ a ∈ args, a.Over V n) :
    (Ty.con c args).Over V n := by
  refine ⟨fun hg => (whole_con c args).mpr fun a ha => (h a ha).whole hg, ?_, ?_⟩
  · intro hv i hi
    rw [vars_con] at hi
    obtain ⟨a, ha, hi⟩ := List.mem_flatMap.mp hi
    exact (h a ha).vars hv i hi
  · intro d hd
    rw [consts_con hne] at hd
    obtain ⟨a, ha, hd⟩ := List.mem_flatMap.mp hd
    exact (h a ha).consts d hd

theorem arg {c : String} {args : List Ty} (h : (Ty.con c args).Over V n) {a : Ty}
    (ha : a ∈ args) : a.Over V n := by
  refine ⟨fun hg => (whole_con c args).mp (h.whole hg) a ha, ?_, ?_⟩
  · intro hv i hi
    refine h.vars hv i ?_
    rw [vars_con]
    exact List.mem_flatMap.mpr ⟨a, ha, hi⟩
  · exact fun d hd => h.consts d (mem_consts_of_mem ha hd)

theorem function {params : List Ty} {result : Ty} (hp : ∀ p ∈ params, p.Over V n)
    (hr : result.Over V n) : (Ty.function params result).Over V n := by
  refine con (by simp) fun a ha => ?_
  rcases List.mem_append.mp ha with ha | ha
  · exact hp a ha
  · rw [List.mem_singleton.mp ha]
    exact hr

theorem array {item : Ty} (h : item.Over V n) : (Ty.array item).Over V n := by
  refine con (by simp) fun a ha => ?_
  rw [List.mem_singleton.mp ha]
  exact h

theorem subst {σ : Int → Ty} {k : Nat} (h : t.Over V k) (hσ : ∀ i ∈ t.vars, (σ i).Over V n) :
    (t.subst σ).Over V n := by
  refine ⟨fun hg => (h.whole hg).subst fun i hi => (hσ i hi).whole hg, ?_, ?_⟩
  · intro hv i hi
    obtain ⟨j, hj, hi⟩ := mem_vars_subst.mp hi
    exact (hσ j hj).vars hv i hi
  · intro c hc
    rcases mem_consts_subst.mp hc with hc | ⟨j, hj, hc⟩
    · exact h.consts c hc
    · exact (hσ j hj).consts c hc

/-- Where the store has no variables and no others are allowed, there are none. -/
theorem closed (h : t.Over V 0) (hv : ¬ V.strays) : t.vars = [] := by
  rw [List.eq_nil_iff_forall_not_mem]
  intro i hi
  have := h.vars hv i hi
  omega

theorem of_closed (h : t.vars = []) : t.Over .all n :=
  ⟨fun hg => absurd trivial hg, by simp [h], fun _ _ => trivial⟩

end Ty.Over

/-- The type under the parameters of a scheme is in a vocabulary and the parameters. -/
def Scheme.Over (V : Vocabulary) (n : Nat) (g : Scheme) : Prop := g.body.Over (V.and g.params) n

namespace Scheme.Over

variable {V : Vocabulary} {n m : Nat} {g : Scheme}

theorem mono (h : g.Over V n) (hnm : n ≤ m) : g.Over V m := Ty.Over.mono h hnm

theorem of_body (h : g.body.Over V n) : g.Over V n :=
  ⟨h.whole, h.vars, fun c hc => .inl (h.consts c hc)⟩

theorem ofTy {t : Ty} (h : t.Over V n) : (Scheme.mono t).Over V n := of_body h

/-- An instance has in the place of the parameters what the arguments have. -/
theorem apply (h : g.Over V n) {args : List Ty} (hl : args.length = g.params.length)
    (ha : ∀ a ∈ args, a.Over V n) : (g.apply args).Over V n := by
  have hmem : ∀ {c u}, argument? g.params args c = some u → u.Over V n := fun hu =>
    ha _ (List.of_mem_zip (List.mem_reverse.mp (mem_of_lookup hu))).2
  rw [← applyUnder_eq_apply fun _ _ => rfl, applyUnder]
  refine ⟨fun hg => ?_, ?_, ?_⟩
  · exact Ty.Whole.inst (Ty.Over.whole h hg) (fun c u hu => (hmem hu).whole hg) fun i _ =>
      Ty.whole_var i
  · intro hv i hi
    rcases Ty.mem_vars_inst.mp hi with ⟨c, _, u, hu, hi⟩ | ⟨j, hj, hi⟩
    · exact (hmem hu).vars hv i hi
    · rw [Ty.vars_var, List.mem_singleton] at hi
      subst hi
      exact Ty.Over.vars h hv i hj
  · intro c hc
    rcases Ty.mem_consts_inst.mp hc with ⟨hc, hn⟩ | ⟨d, _, u, hu, hc⟩ | ⟨j, _, hc⟩
    · rcases Ty.Over.consts h c hc with hv | hp
      · exact hv
      · obtain ⟨a, _, hs⟩ := argument?_isSome hl hp
        rw [hn] at hs
        cases hs
    · exact (hmem hu).consts c hc
    · simp at hc

end Scheme.Over

end Polytype
