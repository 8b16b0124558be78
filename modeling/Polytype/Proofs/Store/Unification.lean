import Mathlib
import Polytype.Store.Unify
import Polytype.Proofs.Store.Resolution
import Polytype.Proofs.Ty.Vocabulary

/-!
# Unification

`Store.Unifying` gives the rules of unification: a list of pairs of types, worked off from left to
right, takes a store to another store and perhaps to an error. Properties of unification are proved by
induction over its rules:

* `Unifying.acyclic` — an acyclic store stays acyclic, and keeps its bindings;
* `Unifying.keeps` — a solution of the store and of all pairs solves the new store;
* `Unifying.solves` — after success, a solution of the new store solves all pairs;
* `Unifying.unsolvable` — after an error, the store and the pairs have no common solution.

`Store.unify_unifying` says that `Store.unify` follows the rules. Its budget of jumps is not used
up: the variables passed on the way down either type reach one another through bindings, so that in an
acyclic store no variable is passed twice on one side.
-/

namespace Polytype.Store

/-! ## The rules -/

/-- Where two chains have ended, the variable that is to be bound and the type it is bound to. -/
inductive Picks : Ty → Ty → Int → Ty → Prop
  | left {i : Int} {b : Ty} : b ≠ .var i → Picks (.var i) b i b
  | right {n : String} {as : List Ty} {j : Int} : Picks (.con n as) (.var j) j (.con n as)

/-- Why two types at the ends of their chains have no common instance. -/
inductive Stuck (s : Store) : Ty → Ty → UnifyError → Prop
  | clash {n m : String} {as bs : List Ty} : Ty.sameShape n as m bs = false →
      Stuck s (.con n as) (.con m bs)
        (.mismatch (s.resolve (.con n as)) (s.resolve (.con m bs)))
  | infinite {a b : Ty} {i : Int} {n : String} {as : List Ty} : Picks a b i (.con n as) →
      s.owns i = true → s.binding? i = none → s.occurs i (.con n as) = true →
      Stuck s a b (.infinite i (s.resolve (.con n as)))
  | foreignLeft {i : Int} {b : Ty} : s.owns i = false → Stuck s (.var i) b (.foreign i)
  | foreignRight {a : Ty} {j : Int} : s.owns j = false → Stuck s a (.var j) (.foreign j)
  | missing {a b : Ty} : a = .absent ∨ b = .absent →
      Stuck s a b (.mismatch (s.resolve a) (s.resolve b))

/-- Pairs of types that are unified from left to right. -/
inductive Unifying : List (Ty × Ty) → Store → Unified → Prop
  | done {s : Store} : Unifying [] s (s, none)
  | descend {n : String} {as bs : List Ty} {rest : List (Ty × Ty)} {s : Store} {r : Unified} :
      as.length = bs.length → Unifying (as.zip bs ++ rest) s r →
      Unifying ((.con n as, .con n bs) :: rest) s r
  | chase {a b : Ty} {rest : List (Ty × Ty)} {s : Store} {r : Unified} :
      Unifying ((s.find a, s.find b) :: rest) s r → Unifying ((a, b) :: rest) s r
  | same {i : Int} {rest : List (Ty × Ty)} {s : Store} {r : Unified} :
      Unifying rest s r → Unifying ((.var i, .var i) :: rest) s r
  | bind {a b t : Ty} {i : Int} {rest : List (Ty × Ty)} {s : Store} {r : Unified} :
      Picks a b i t → s.owns i = true → s.binding? i = none → s.occurs i t = false →
      Unifying rest (s.bind i t) r → Unifying ((a, b) :: rest) s r
  | stop {a b : Ty} {e : UnifyError} {rest : List (Ty × Ty)} {s : Store} :
      Stuck s a b e → Unifying ((a, b) :: rest) s (s, some e)

/-! ## Bindings that are added -/

/-- A store with more bindings. -/
structure Extends (s s' : Store) : Prop where
  size : s'.size = s.size
  kept : ∀ i t, s.binding? i = some t → s'.binding? i = some t

theorem Extends.refl (s : Store) : s.Extends s := ⟨rfl, fun _ _ h => h⟩

theorem Extends.trans {s₁ s₂ s₃ : Store} (h₁ : s₁.Extends s₂) (h₂ : s₂.Extends s₃) :
    s₁.Extends s₃ :=
  ⟨h₂.size.trans h₁.size, fun i t h => h₂.kept i t (h₁.kept i t h)⟩

theorem Extends.bind {s : Store} {i : Int} (t : Ty) (hb : s.binding? i = none) :
    s.Extends (s.bind i t) := by
  refine ⟨size_bind s i t, fun j u hu => ?_⟩
  have hne : j ≠ i := by
    rintro rfl
    rw [hb] at hu
    cases hu
  rw [binding?_bind_of_ne t hne, hu]

theorem Extends.solvedBy {s s' : Store} (h : s.Extends s') {σ : Int → Ty} (hσ : s'.SolvedBy σ) :
    s.SolvedBy σ :=
  fun i t hb => hσ i t (h.kept i t hb)

theorem Extends.reaches {s s' : Store} (h : s.Extends s') {i j : Int}
    (hr : Relation.TransGen s.Mentions i j) : Relation.TransGen s'.Mentions i j := by
  have hle : s.Mentions ≤ s'.Mentions := fun k _ ⟨t, ht, hj⟩ => ⟨t, h.kept k t ht, hj⟩
  exact Relation.TransGen.mono hle i j hr

theorem Picks.ne {a b t : Ty} {i : Int} (h : Picks a b i t) : t ≠ .var i := by
  cases h with
  | left hne => exact hne
  | right => simp

/-- The picked variable and its type are the two sides. -/
theorem Picks.subst_iff {a b t : Ty} {i : Int} (h : Picks a b i t) (σ : Int → Ty) :
    σ i = t.subst σ ↔ a.subst σ = b.subst σ := by
  cases h with
  | left _ => rfl
  | right => exact eq_comm

theorem Acyclic.bind_of_occurs {s : Store} (h : s.Acyclic) {i : Int} {t : Ty}
    (hi : s.owns i = true) (hb : s.binding? i = none) (ho : s.occurs i t = false) :
    (s.bind i t).Acyclic := by
  refine h.bind hi hb fun j hj hr => ?_
  have := occurs_iff.mpr (mem_resolve_of_reaches h hb ⟨j, hj, hr⟩)
  rw [ho] at this
  cases this

/-- The solutions after a binding are those before it that satisfy the binding. -/
theorem solvedBy_bind {s : Store} {i : Int} {t : Ty} (hi : s.owns i = true)
    (hb : s.binding? i = none) (hne : t ≠ .var i) {σ : Int → Ty} :
    (s.bind i t).SolvedBy σ ↔ s.SolvedBy σ ∧ σ i = t.subst σ := by
  constructor
  · exact fun h => ⟨(Extends.bind t hb).solvedBy h, h i t (binding?_bind_self hi hne)⟩
  · rintro ⟨hs, ht⟩ j u hu
    by_cases hj : j = i
    · subst hj
      rw [binding?_bind_self hi hne] at hu
      cases hu
      exact ht
    · rw [binding?_bind_of_ne t hj] at hu
      exact hs j u hu

/-! ## What the rules preserve -/

namespace Unifying

variable {ws : List (Ty × Ty)} {s : Store} {r : Unified}

/-- Bindings are only added, and close no cycle. -/
theorem acyclic (h : Unifying ws s r) (hs : s.Acyclic) : s.Extends r.1 ∧ r.1.Acyclic := by
  induction h with
  | done => exact ⟨.refl _, hs⟩
  | descend _ _ ih => exact ih hs
  | chase _ ih => exact ih hs
  | same _ ih => exact ih hs
  | bind _ hi hb ho _ ih =>
    obtain ⟨he, ha⟩ := ih (hs.bind_of_occurs hi hb ho)
    exact ⟨(Extends.bind _ hb).trans he, ha⟩
  | stop _ => exact ⟨.refl _, hs⟩

theorem forall_zip_iff {σ : Int → Ty} {as bs : List Ty} (hl : as.length = bs.length) :
    (∀ p ∈ as.zip bs, p.1.subst σ = p.2.subst σ) ↔ as.map (Ty.subst σ) = bs.map (Ty.subst σ) := by
  induction as generalizing bs with
  | nil =>
    cases bs with
    | nil => simp
    | cons b bs => simp at hl
  | cons a as ih =>
    cases bs with
    | nil => simp at hl
    | cons b bs =>
      rw [List.zip_cons_cons, List.forall_mem_cons, ih (Nat.succ.inj hl), List.map_cons,
        List.map_cons, List.cons_eq_cons]

/-- A common solution of the store and the pairs is a solution of the new store. -/
theorem keeps (h : Unifying ws s r) (hs : s.Acyclic) {σ : Int → Ty} (hσ : s.SolvedBy σ)
    (hw : ∀ p ∈ ws, p.1.subst σ = p.2.subst σ) : r.1.SolvedBy σ := by
  induction h with
  | done => exact hσ
  | descend hl _ ih =>
    rw [List.forall_mem_cons] at hw
    refine ih hs hσ fun p hp => ?_
    rcases List.mem_append.mp hp with hp | hp
    · have hmap := hw.1
      simp only [Ty.subst_con, Ty.con.injEq, true_and] at hmap
      exact (forall_zip_iff hl).mpr hmap p hp
    · exact hw.2 p hp
  | chase _ ih =>
    rw [List.forall_mem_cons] at hw
    refine ih hs hσ ?_
    rw [List.forall_mem_cons]
    exact ⟨by simpa only [subst_find hs hσ] using hw.1, hw.2⟩
  | same _ ih => exact ih hs hσ fun p hp => hw p (List.mem_cons_of_mem _ hp)
  | bind hp hi hb ho _ ih =>
    rw [List.forall_mem_cons] at hw
    exact ih (hs.bind_of_occurs hi hb ho)
      ((solvedBy_bind hi hb hp.ne).mpr ⟨hσ, (hp.subst_iff σ).mpr hw.1⟩) hw.2
  | stop _ => exact hσ

/-- After success a solution of the new store makes the types of each pair equal. -/
theorem solves (h : Unifying ws s r) (hs : s.Acyclic) (hr : r.2 = none) {σ : Int → Ty}
    (hσ : r.1.SolvedBy σ) : ∀ p ∈ ws, p.1.subst σ = p.2.subst σ := by
  induction h with
  | done => simp
  | descend hl _ ih =>
    have hall := ih hs hr hσ
    rw [List.forall_mem_cons]
    refine ⟨?_, fun p hp => hall p (List.mem_append_right _ hp)⟩
    rw [Ty.subst_con, Ty.subst_con]
    exact congrArg _ ((forall_zip_iff hl).mp fun p hp => hall p (List.mem_append_left _ hp))
  | chase hu ih =>
    have hall := ih hs hr hσ
    have hold : SolvedBy _ σ := (hu.acyclic hs).1.solvedBy hσ
    rw [List.forall_mem_cons] at hall ⊢
    exact ⟨by simpa only [subst_find hs hold] using hall.1, hall.2⟩
  | same _ ih =>
    rw [List.forall_mem_cons]
    exact ⟨rfl, ih hs hr hσ⟩
  | bind hp hi hb ho hu ih =>
    have ha := hs.bind_of_occurs hi hb ho
    have hbind := (hu.acyclic ha).1.solvedBy hσ
    rw [List.forall_mem_cons]
    exact ⟨(hp.subst_iff σ).mp ((solvedBy_bind hi hb hp.ne).mp hbind).2, ih ha hr hσ⟩
  | stop _ => cases hr

end Unifying

/-! ## Vocabulary of a store -/

/-- The types that variables are bound to are in a vocabulary and mention only variables of the
store. -/
def Over (V : Vocabulary) (s : Store) : Prop := ∀ i t, s.binding? i = some t → t.Over V s.size

theorem Over.find {V : Vocabulary} {s : Store} (h : s.Acyclic) (hs : s.Over V) {t : Ty}
    (ht : t.Over V s.size) : (s.find t).Over V s.size := by
  induction t using h.induct with
  | absent => rwa [find_absent]
  | free i hb => rwa [find_free hb]
  | bound i u hb ih =>
    rw [find_bound h hb]
    exact ih (hs i u hb)
  | con name args _ => rwa [find_con]

theorem Over.resolve {V : Vocabulary} {s : Store} (h : s.Acyclic) (hs : s.Over V) {t : Ty}
    (ht : t.Over V s.size) : (s.resolve t).Over V s.size := by
  have hvar : ∀ j, (Ty.var j).Over V s.size → (s.resolve (.var j)).Over V s.size := by
    intro j
    induction j using h.wellFounded.induction with
    | _ j ih =>
      intro hj
      cases hb : s.binding? j with
      | none => rwa [resolve_free hb]
      | some u =>
        rw [resolve_bound h hb, resolve_eq_subst]
        refine (hs j u hb).subst fun k hk => ih k ⟨u, hb, hk⟩ ?_
        exact (hs j u hb).var_of_mem hk
  rw [resolve_eq_subst]
  exact ht.subst fun j hj => hvar j (ht.var_of_mem hj)

/-- The constructors of a variable's resolved type are those of the store. -/
theorem Over.mem_consts_resolve {V : Vocabulary} {s : Store} (h : s.Acyclic) (hs : s.Over V) {i : Int}
    {c : String} (hc : c ∈ (s.resolve (.var i)).consts) : V.consts c := by
  cases hb : s.binding? i with
  | none =>
    rw [resolve_free hb] at hc
    simp at hc
  | some u =>
    rw [resolve_bound h hb] at hc
    exact (hs.resolve h (hs i u hb)).consts c hc

theorem Over.whole_resolve {V : Vocabulary} {s : Store} (h : s.Acyclic) (hs : s.Over V)
    (hg : ¬ V.gaps) (i : Int) : (s.resolve (.var i)).Whole := by
  cases hb : s.binding? i with
  | none =>
    rw [resolve_free hb]
    exact Ty.whole_var i
  | some u =>
    rw [resolve_bound h hb]
    exact (hs.resolve h (hs i u hb)).whole hg

theorem Over.bind {V : Vocabulary} {s : Store} (hs : s.Over V) {i : Int} {t : Ty}
    (hi : s.owns i = true) (hne : t ≠ .var i) (ht : t.Over V s.size) : (s.bind i t).Over V := by
  intro j u hu
  rw [size_bind]
  by_cases hj : j = i
  · subst hj
    rw [binding?_bind_self hi hne] at hu
    cases hu
    exact ht
  · rw [binding?_bind_of_ne t hj] at hu
    exact hs j u hu

theorem Picks.over {V : Vocabulary} {n : Nat} {a b t : Ty} {i : Int} (h : Picks a b i t)
    (ha : a.Over V n) (hb : b.Over V n) : t.Over V n := by
  cases h with
  | left _ => exact hb
  | right => exact ha

namespace Unifying

variable {ws : List (Ty × Ty)} {s : Store} {r : Unified} {V : Vocabulary}

/-- Both types of each pair are in a vocabulary. -/
def PairsOver (V : Vocabulary) (n : Nat) (ws : List (Ty × Ty)) : Prop :=
  ∀ p ∈ ws, p.1.Over V n ∧ p.2.Over V n

theorem pairsOver_descend {n : Nat} {c d : String} {as bs : List Ty} {rest : List (Ty × Ty)}
    (h : PairsOver V n ((.con c as, .con d bs) :: rest)) : PairsOver V n (as.zip bs ++ rest) := by
  intro p hp
  rcases List.mem_append.mp hp with hp | hp
  · have hhead := h _ List.mem_cons_self
    exact ⟨hhead.1.arg (List.of_mem_zip hp).1, hhead.2.arg (List.of_mem_zip hp).2⟩
  · exact h p (List.mem_cons_of_mem _ hp)

theorem pairsOver_chase (hs : s.Acyclic) (ho : s.Over V) {a b : Ty} {rest : List (Ty × Ty)}
    (h : PairsOver V s.size ((a, b) :: rest)) :
    PairsOver V s.size ((s.find a, s.find b) :: rest) := by
  intro p hp
  rcases List.mem_cons.mp hp with rfl | hp
  · have hhead := h _ List.mem_cons_self
    exact ⟨ho.find hs hhead.1, ho.find hs hhead.2⟩
  · exact h p (List.mem_cons_of_mem _ hp)

/-- A store stays within the vocabulary of the types that are unified. -/
theorem vocabulary (h : Unifying ws s r) (hs : s.Acyclic) (ho : s.Over V)
    (hw : PairsOver V s.size ws) : r.1.Over V := by
  induction h with
  | done => exact ho
  | descend _ _ ih => exact ih hs ho (pairsOver_descend hw)
  | chase _ ih => exact ih hs ho (pairsOver_chase hs ho hw)
  | same _ ih => exact ih hs ho fun p hp => hw p (List.mem_cons_of_mem _ hp)
  | bind hp hi hb hoc _ ih =>
    have hhead := hw _ List.mem_cons_self
    refine ih (hs.bind_of_occurs hi hb hoc) (ho.bind hi hp.ne (hp.over hhead.1 hhead.2)) ?_
    rw [size_bind]
    exact fun p hp => hw p (List.mem_cons_of_mem _ hp)
  | stop _ => exact ho

end Unifying

/-! ## Failure -/

/-- Types over the store's own variables are not stuck at a foreign one. -/
theorem Stuck.ne_foreign {s : Store} {V : Vocabulary} (hv : ¬ V.strays) {a b : Ty} {e : UnifyError}
    (h : Stuck s a b e) (ha : a.Over V s.size) (hb : b.Over V s.size) (i : Int) : e ≠ .foreign i := by
  cases h with
  | clash _ => simp
  | infinite _ _ _ _ => simp
  | missing _ => simp
  | foreignLeft hi =>
    rw [← Bool.not_eq_true, owns_iff] at hi
    exact absurd (ha.vars hv _ (by simp)) hi
  | foreignRight hj =>
    rw [← Bool.not_eq_true, owns_iff] at hj
    exact absurd (hb.vars hv _ (by simp)) hj

/-- Where only the store's own variables occur, no error is about a foreign one. -/
theorem Unifying.ne_foreign {V : Vocabulary} (hv : ¬ V.strays) {ws : List (Ty × Ty)} {s : Store}
    {r : Unified} (h : Unifying ws s r) (hs : s.Acyclic) (ho : s.Over V) (hw : PairsOver V s.size ws)
    (i : Int) : r.2 ≠ some (.foreign i) := by
  induction h with
  | done => simp
  | descend _ _ ih => exact ih hs ho (pairsOver_descend hw)
  | chase _ ih => exact ih hs ho (pairsOver_chase hs ho hw)
  | same _ ih => exact ih hs ho fun p hp => hw p (List.mem_cons_of_mem _ hp)
  | bind hp hi hb hoc _ ih =>
    have hhead := hw _ List.mem_cons_self
    refine ih (hs.bind_of_occurs hi hb hoc) (ho.bind hi hp.ne (hp.over hhead.1 hhead.2)) ?_
    rw [size_bind]
    exact fun p hp => hw p (List.mem_cons_of_mem _ hp)
  | stop hst =>
    have hhead := hw _ List.mem_cons_self
    simpa using hst.ne_foreign hv hhead.1 hhead.2 i

/-- The rules end with the pairs worked off or with two types that are stuck. -/
theorem Unifying.ne_broken {ws : List (Ty × Ty)} {s : Store} {r : Unified} (h : Unifying ws s r)
    (f : Fault) : r.2 ≠ some (.broken f) := by
  induction h with
  | done => simp
  | descend _ _ ih => exact ih
  | chase _ ih => exact ih
  | same _ ih => exact ih
  | bind _ _ _ _ _ ih => exact ih
  | stop hst => cases hst <;> simp

/-- A type is longer than the types of its variables. -/
theorem sizeOf_le_subst {t : Ty} {i : Int} (hi : i ∈ t.vars) (σ : Int → Ty) :
    sizeOf (σ i) ≤ sizeOf (t.subst σ) := by
  induction t with
  | absent => simp at hi
  | var id =>
    rw [Ty.vars_var, List.mem_singleton] at hi
    rw [hi, Ty.subst_var]
  | con name args ih =>
    rw [Ty.vars_con] at hi
    obtain ⟨a, ha, hi⟩ := List.mem_flatMap.mp hi
    have hle := ih a ha hi
    have hlt := List.sizeOf_lt_of_mem (List.mem_map_of_mem (f := Ty.subst σ) ha)
    rw [Ty.subst_con, Ty.con.sizeOf_spec]
    omega

/-- No solution makes a variable equal to a type that it occurs in. -/
theorem ne_subst_of_occurs {s : Store} {i : Int} {n : String} {as : List Ty}
    (ho : s.occurs i (.con n as) = true) {σ : Int → Ty} (hσ : s.SolvedBy σ) :
    σ i ≠ (Ty.con n as).subst σ := by
  intro heq
  rw [← subst_resolve hσ, resolve_con, Ty.subst_con] at heq
  have hi := occurs_iff.mp ho
  rw [resolve_con, Ty.vars_con] at hi
  obtain ⟨a, ha, hi⟩ := List.mem_flatMap.mp hi
  have hle := sizeOf_le_subst hi σ
  have hlt := List.sizeOf_lt_of_mem (List.mem_map_of_mem ha : a.subst σ ∈ _)
  have hsize := congrArg sizeOf heq
  rw [Ty.con.sizeOf_spec] at hsize
  omega

/-- Types without gaps, over the store's own variables, that are stuck differ under every solution. -/
theorem Stuck.subst_ne {s : Store} {a b : Ty} {e : UnifyError} (h : Stuck s a b e)
    (ha : a.Over .whole s.size) (hb : b.Over .whole s.size) {σ : Int → Ty} (hσ : s.SolvedBy σ) :
    a.subst σ ≠ b.subst σ := by
  cases h with
  | clash hsh =>
    intro heq
    simp only [Ty.subst_con, Ty.con.injEq] at heq
    have hlen := congrArg List.length heq.2
    rw [List.length_map, List.length_map] at hlen
    simp [Ty.sameShape, heq.1, hlen] at hsh
  | infinite hp _ _ ho => exact fun heq => ne_subst_of_occurs ho hσ ((hp.subst_iff σ).mpr heq)
  | foreignLeft hi => exact absurd rfl (Stuck.ne_foreign not_false (.foreignLeft hi) ha hb _)
  | foreignRight hj => exact absurd rfl (Stuck.ne_foreign not_false (.foreignRight hj) ha hb _)
  | missing hm =>
    rcases hm with rfl | rfl
    · exact absurd (ha.whole not_false) Ty.not_whole_absent
    · exact absurd (hb.whole not_false) Ty.not_whole_absent

/-- After an error no solution of the store makes the types of every pair equal. -/
theorem Unifying.unsolvable {ws : List (Ty × Ty)} {s : Store} {r : Unified}
    (h : Unifying ws s r) (hs : s.Acyclic) (ho : s.Over .whole) (hw : PairsOver .whole s.size ws)
    (hr : r.2 ≠ none) {σ : Int → Ty} (hσ : s.SolvedBy σ) :
    ¬ ∀ p ∈ ws, p.1.subst σ = p.2.subst σ := by
  induction h with
  | done => exact absurd rfl hr
  | descend hl _ ih =>
    intro hall
    rw [List.forall_mem_cons] at hall
    refine ih hs ho (pairsOver_descend hw) hr hσ fun p hp => ?_
    rcases List.mem_append.mp hp with hp | hp
    · have hmap := hall.1
      simp only [Ty.subst_con, Ty.con.injEq, true_and] at hmap
      exact (forall_zip_iff hl).mpr hmap p hp
    · exact hall.2 p hp
  | chase _ ih =>
    intro hall
    rw [List.forall_mem_cons] at hall
    refine ih hs ho (pairsOver_chase hs ho hw) hr hσ ?_
    rw [List.forall_mem_cons]
    exact ⟨by simpa only [subst_find hs hσ] using hall.1, hall.2⟩
  | same _ ih =>
    intro hall
    exact ih hs ho (fun p hp => hw p (List.mem_cons_of_mem _ hp)) hr hσ fun p hp =>
      hall p (List.mem_cons_of_mem _ hp)
  | bind hp hi hb hoc _ ih =>
    intro hall
    rw [List.forall_mem_cons] at hall
    have hhead := hw _ List.mem_cons_self
    refine ih (hs.bind_of_occurs hi hb hoc) (ho.bind hi hp.ne (hp.over hhead.1 hhead.2)) ?_ hr
      ((solvedBy_bind hi hb hp.ne).mpr ⟨hσ, (hp.subst_iff σ).mpr hall.1⟩) hall.2
    rw [size_bind]
    exact fun p hp => hw p (List.mem_cons_of_mem _ hp)
  | stop hst =>
    intro hall
    have hhead := hw _ List.mem_cons_self
    exact hst.subst_ne hhead.1 hhead.2 hσ (hall _ List.mem_cons_self)

/-! ## Unification follows the rules -/

/-- Variables that were passed on the way down to a type: each leads to each variable of the
type. -/
structure OnPath (s : Store) (path : List Int) (t : Ty) : Prop where
  nodup : path.Nodup
  owned : ∀ x ∈ path, s.owns x = true
  leads : ∀ x ∈ path, ∀ v ∈ t.vars, Relation.TransGen s.Mentions x v

namespace OnPath

variable {s : Store} {path : List Int} {t : Ty}

theorem nil (s : Store) (t : Ty) : OnPath s [] t := ⟨List.nodup_nil, by simp, by simp⟩

theorem length_le (h : OnPath s path t) : path.length ≤ s.size := by
  have hsub : path.toFinset ⊆ Finset.Ico (0 : Int) s.size := by
    intro x hx
    rw [Finset.mem_Ico]
    exact owns_iff.mp (h.owned x (List.mem_toFinset.mp hx))
  have hcard := Finset.card_le_card hsub
  rwa [List.toFinset_card_of_nodup h.nodup, Int.card_Ico, sub_zero, Int.toNat_natCast] at hcard

theorem arg {c : String} {args : List Ty} (h : OnPath s path (.con c args)) {a : Ty}
    (ha : a ∈ args) : OnPath s path a := by
  refine ⟨h.nodup, h.owned, fun x hx v hv => h.leads x hx v ?_⟩
  rw [Ty.vars_con]
  exact List.mem_flatMap.mpr ⟨a, ha, hv⟩

theorem extend {s' : Store} (h : OnPath s path t) (he : s.Extends s') : OnPath s' path t := by
  refine ⟨h.nodup, fun x hx => ?_, fun x hx v hv => he.reaches (h.leads x hx v hv)⟩
  have := h.owned x hx
  rw [owns_iff] at this ⊢
  rwa [he.size]

/-- Following the bindings of a variable passes it, for the first time. -/
theorem follow (hs : s.Acyclic) {i : Int} (h : OnPath s path (.var i)) {u : Ty}
    (hb : s.binding? i = some u) : OnPath s (i :: path) (s.find (.var i)) := by
  have hreach : ∀ v ∈ (s.find (.var i)).vars, Relation.TransGen s.Mentions i v := by
    intro v hv
    rw [find_bound hs hb] at hv
    obtain ⟨j, hj, hr⟩ := find_reaches hs hv
    exact Relation.TransGen.head' ⟨u, hb, hj⟩ hr
  have hlead : ∀ x ∈ path, Relation.TransGen s.Mentions x i := fun x hx =>
    h.leads x hx i (by simp)
  refine ⟨List.nodup_cons.mpr ⟨fun hi => hs i (hlead i hi), h.nodup⟩, ?_, ?_⟩
  · rw [List.forall_mem_cons]
    exact ⟨owns_of_binding? hb, h.owned⟩
  · rw [List.forall_mem_cons]
    exact ⟨hreach, fun x hx v hv => (hlead x hx).trans (hreach v hv)⟩

end OnPath

/-- Where the pairs that remain lead to from a first result. -/
def Continues (r : Unified) (rest : List (Ty × Ty)) (r' : Unified) : Prop :=
  (r.2 = none → Unifying rest r.1 r') ∧ (r.2 ≠ none → r' = r)

theorem continues_nil (r : Unified) : Continues r [] r := by
  refine ⟨fun h => ?_, fun _ => rfl⟩
  obtain ⟨s, e⟩ := r
  cases h
  exact .done

theorem Continues.of_ok {s : Store} {rest : List (Ty × Ty)} {r : Unified}
    (h : Continues (s, none) rest r) : Unifying rest s r := h.1 rfl

theorem Continues.stop {s : Store} {e : UnifyError} {a b : Ty} {rest : List (Ty × Ty)}
    {r : Unified} (h : Continues (s, some e) rest r) (hst : Stuck s a b e) :
    Unifying ((a, b) :: rest) s r := by
  rw [h.2 (by simp)]
  exact .stop hst

/-- A variable of the store has a slot to be written. -/
theorem bindVar_eq {s : Store} {i : Int} (hi : s.owns i = true) (t : Ty) :
    s.bindVar i t =
      if s.occurs i t then (s, some (.infinite i (s.resolve t))) else (s.bind i t, none) := by
  rw [bindVar, bind?, if_pos hi]

/-- Binding the picked variable, or refusing to, is a rule. -/
theorem bindVar_unifying {s : Store} {a b t : Ty} {i : Int} {rest : List (Ty × Ty)} {r : Unified}
    (hp : Picks a b i t) (hi : s.owns i = true) (hb : s.binding? i = none)
    (hend : ∀ j, t = .var j → s.binding? j = none) (hc : Continues (s.bindVar i t) rest r) :
    Unifying ((a, b) :: rest) s r := by
  rw [bindVar_eq hi] at hc
  cases ho : s.occurs i t with
  | false =>
    rw [ho] at hc
    exact .bind hp hi hb ho hc.of_ok
  | true =>
    rw [ho] at hc
    cases t with
    | absent => simp [occurs_iff] at ho
    | con n as => exact hc.stop (.infinite hp hi hb ho)
    | var j =>
      -- the other variable is unbound too, so the first would have to be the second
      rw [occurs_iff, resolve_free (hend j rfl), Ty.vars_var, List.mem_singleton] at ho
      exact absurd (congrArg Ty.var ho.symm) hp.ne

/-- A type is at the end of its chain of bindings. -/
def Ended (s : Store) (t : Ty) : Prop := ∀ i, t = .var i → s.binding? i = none

/-- Types at the ends of their chains are unified by a rule, or both are constructors. -/
theorem meet_unifying {s : Store} {jump : Ty → Ty → Store → Unified} {a b : Ty}
    {rest : List (Ty × Ty)} {r : Unified} (ha : s.Ended a) (hb : s.Ended b)
    (hcon : ∀ n as m bs, a = .con n as → b = .con m bs → Continues (jump a b s) rest r →
      Unifying ((a, b) :: rest) s r)
    (hc : Continues (s.meet jump a b) rest r) : Unifying ((a, b) :: rest) s r := by
  cases a with
  | absent => cases b <;> exact hc.stop (.missing (.inl rfl))
  | con n as =>
    cases b with
    | absent => exact hc.stop (.missing (.inr rfl))
    | con m bs => exact hcon n as m bs rfl rfl hc
    | var j =>
      rw [meet] at hc
      cases hj : s.owns j with
      | false => exact Continues.stop (by simpa [hj] using hc) (.foreignRight hj)
      | true => exact bindVar_unifying .right hj (hb j rfl) (by simp) (by simpa [hj] using hc)
  | var i =>
    cases hi : s.owns i with
    | false => cases b <;> exact Continues.stop (by simpa [meet, hi] using hc) (.foreignLeft hi)
    | true =>
      cases b with
      | absent =>
        exact bindVar_unifying (.left (by simp)) hi (ha i rfl) hb (by simpa [meet, hi] using hc)
      | con m bs =>
        exact bindVar_unifying (.left (by simp)) hi (ha i rfl) hb (by simpa [meet, hi] using hc)
      | var j =>
        cases hj : s.owns j with
        | false => exact Continues.stop (by simpa [meet, hi, hj] using hc) (.foreignRight hj)
        | true =>
          by_cases hij : i = j
          · subst hij
            exact .same (Continues.of_ok (by simpa [meet, hi] using hc))
          · exact bindVar_unifying (.left (by simpa using Ne.symm hij)) hi (ha i rfl) hb
              (by simpa [meet, hi, hj, hij] using hc)

/-- A function unifies along paths with a number of jumps. -/
def Follows (jumps : Nat) (jump : Ty → Ty → Store → Unified) (a : Ty) : Prop :=
  ∀ b s left right rest r, s.Acyclic → OnPath s left a → OnPath s right b →
    2 * s.size < jumps + left.length + right.length → Continues (jump a b s) rest r →
    Unifying ((a, b) :: rest) s r

theorem Follows.single {jumps : Nat} {jump : Ty → Ty → Store → Unified} {a b : Ty} {s : Store}
    {left right : List Int} (h : Follows jumps jump a) (hs : s.Acyclic) (hl : OnPath s left a)
    (hr : OnPath s right b) (hj : 2 * s.size < jumps + left.length + right.length) :
    Unifying [(a, b)] s (jump a b s) :=
  h b s left right [] _ hs hl hr hj (continues_nil _)

theorem unifyArgs_unifying {jumps : Nat} {jump : Ty → Ty → Store → Unified} {as : List Ty}
    (h : ∀ a ∈ as, Follows jumps (unifyStep jump) a) {bs : List Ty} (hlen : as.length = bs.length)
    {s : Store} {left right : List Int} (hs : s.Acyclic) (hl : ∀ a ∈ as, OnPath s left a)
    (hr : ∀ b ∈ bs, OnPath s right b) (hj : 2 * s.size < jumps + left.length + right.length)
    {rest : List (Ty × Ty)} {r : Unified} (hc : Continues (unifyArgs jump as bs s) rest r) :
    Unifying (as.zip bs ++ rest) s r := by
  induction as generalizing bs s with
  | nil => simpa [unifyArgs] using hc.of_ok
  | cons a as ih =>
    cases bs with
    | nil => simp at hlen
    | cons b bs =>
      have hab := (h a (by simp)).single hs (hl a (by simp)) (hr b (by simp)) hj
      refine h a (by simp) b s left right (as.zip bs ++ rest) r hs (hl a (by simp))
        (hr b (by simp)) hj ?_
      rw [unifyArgs] at hc
      generalize unifyStep jump a b s = first at hab hc ⊢
      obtain ⟨s', e⟩ := first
      cases e with
      | some e => exact ⟨by simp, hc.2⟩
      | none =>
        obtain ⟨he, ha⟩ := hab.acyclic hs
        refine ⟨fun _ => ?_, by simp⟩
        refine ih (fun c hc => h c (List.mem_cons_of_mem _ hc)) (Nat.succ.inj hlen) ha
          (fun c hc => (hl c (List.mem_cons_of_mem _ hc)).extend he)
          (fun c hc => (hr c (List.mem_cons_of_mem _ hc)).extend he) ?_ hc
        rw [he.size]
        exact hj

/-- Where one side is not a constructor, both chains are followed to their ends. -/
theorem unifyStep_of_not_con {jump : Ty → Ty → Store → Unified} {a b : Ty} (s : Store)
    (h : (∀ n as, a ≠ .con n as) ∨ ∀ m bs, b ≠ .con m bs) :
    unifyStep jump a b s = s.meet jump (s.find a) (s.find b) := by
  cases a with
  | absent => rw [unifyStep]; simp
  | var i => rw [unifyStep]; simp
  | con n as =>
    cases b with
    | absent => rw [unifyStep]; simp
    | var j => rw [unifyStep]; simp
    | con m bs =>
      rcases h with h | h
      · exact absurd rfl (h n as)
      · exact absurd rfl (h m bs)

theorem ended_find {s : Store} (hs : s.Acyclic) (t : Ty) : s.Ended (s.find t) :=
  fun _ hi => binding?_of_find hs hi

/-- A path to a type gives one to the end of its chain, longer by one where the type was a variable
that led to a constructor. -/
theorem OnPath.find {s : Store} (hs : s.Acyclic) {path : List Int} {t : Ty} (h : OnPath s path t)
    {n : String} {as : List Ty} (hf : s.find t = .con n as) :
    ∃ path', OnPath s path' (.con n as) ∧ path.length ≤ path'.length ∧
      ((∀ n as, t ≠ .con n as) → path.length < path'.length) := by
  cases t with
  | absent => simp at hf
  | con m bs =>
    rw [find_con] at hf
    rw [hf] at h
    exact ⟨path, h, le_rfl, fun hne => absurd rfl (hne m bs)⟩
  | var i =>
    cases hb : s.binding? i with
    | none =>
      rw [find_free hb] at hf
      cases hf
    | some u =>
      have hp := h.follow hs hb
      rw [hf] at hp
      exact ⟨i :: path, hp, by simp, by simp⟩

theorem unifyStep_follows {jumps : Nat} {jump : Ty → Ty → Store → Unified}
    (hjump : ∀ a, Follows jumps jump a) (a : Ty) : Follows (jumps + 1) (unifyStep jump) a := by
  -- below constructors on both sides the induction is over the type on the left; a jump, which uses up
  -- one of the budget, has made a path longer
  have hmeet : ∀ {a b : Ty}, ((∀ n as, a ≠ .con n as) ∨ ∀ m bs, b ≠ .con m bs) →
      ∀ {s : Store} {left right : List Int} {rest : List (Ty × Ty)} {r : Unified},
      s.Acyclic → OnPath s left a → OnPath s right b →
      2 * s.size < jumps + 1 + left.length + right.length →
      Continues (unifyStep jump a b s) rest r → Unifying ((a, b) :: rest) s r := by
    intro a b hab s left right rest r hs hl hr hj hc
    rw [unifyStep_of_not_con s hab] at hc
    refine .chase (meet_unifying (ended_find hs a) (ended_find hs b) ?_ hc)
    intro n as m bs ha hb hc
    obtain ⟨left', hl', hle, hlt⟩ := hl.find hs ha
    obtain ⟨right', hr', hre, hrt⟩ := hr.find hs hb
    rw [ha, hb] at hc ⊢
    refine hjump _ _ s left' right' rest r hs hl' hr' ?_ hc
    rcases hab with h | h
    · have := hlt h
      omega
    · have := hrt h
      omega
  induction a with
  | absent => exact fun b s left right rest r hs hl hr hj hc => hmeet (by simp) hs hl hr hj hc
  | var i => exact fun b s left right rest r hs hl hr hj hc => hmeet (by simp) hs hl hr hj hc
  | con n as ih =>
    intro b s left right rest r hs hl hr hj hc
    cases b with
    | absent => exact hmeet (by simp) hs hl hr hj hc
    | var j => exact hmeet (by simp) hs hl hr hj hc
    | con m bs =>
      rw [unifyStep] at hc
      cases hsh : Ty.sameShape n as m bs with
      | false =>
        rw [hsh] at hc
        exact Continues.stop hc (.clash hsh)
      | true =>
        obtain ⟨rfl, hlen⟩ : n = m ∧ as.length = bs.length := by simpa [Ty.sameShape] using hsh
        refine .descend hlen (unifyArgs_unifying ih hlen hs (fun a ha => hl.arg ha)
          (fun b hb => hr.arg hb) hj ?_)
        simpa [hsh] using hc

theorem unifyWithin_follows (jumps : Nat) (a : Ty) : Follows jumps (unifyWithin jumps) a := by
  induction jumps generalizing a with
  | zero =>
    intro b s left right rest r _ hl hr hj _
    have := hl.length_le
    have := hr.length_le
    omega
  | succ jumps ih => exact unifyStep_follows ih a

/-- In an acyclic store, unification follows the rules. -/
theorem unify_unifying {s : Store} (hs : s.Acyclic) (a b : Ty) :
    Unifying [(a, b)] s (s.unify a b) :=
  (unifyWithin_follows _ a).single hs (.nil s a) (.nil s b) (by simp)

section

variable {s : Store} {a b : Ty}

theorem unify_acyclic (hs : s.Acyclic) (a b : Ty) : (s.unify a b).1.Acyclic :=
  ((unify_unifying hs a b).acyclic hs).2

theorem unify_extends (hs : s.Acyclic) (a b : Ty) : s.Extends (s.unify a b).1 :=
  ((unify_unifying hs a b).acyclic hs).1

/-- After success the solutions are those of before that make both types equal. -/
theorem unify_solvedBy (hs : s.Acyclic) (h : (s.unify a b).2 = none) {σ : Int → Ty} :
    (s.unify a b).1.SolvedBy σ ↔ s.SolvedBy σ ∧ a.subst σ = b.subst σ := by
  have hu := unify_unifying hs a b
  constructor
  · exact fun hσ => ⟨(unify_extends hs a b).solvedBy hσ, hu.solves hs h hσ (a, b) (by simp)⟩
  · exact fun hσ => hu.keeps hs hσ.1 (by simpa using hσ.2)

theorem unify_over {V : Vocabulary} (hs : s.Acyclic) (ho : s.Over V) (ha : a.Over V s.size)
    (hb : b.Over V s.size) : (s.unify a b).1.Over V :=
  (unify_unifying hs a b).vocabulary hs ho (by simpa [Unifying.PairsOver] using ⟨ha, hb⟩)

theorem unify_ne_foreign {V : Vocabulary} (hv : ¬ V.strays) (hs : s.Acyclic) (ho : s.Over V)
    (ha : a.Over V s.size) (hb : b.Over V s.size) (i : Int) : (s.unify a b).2 ≠ some (.foreign i) :=
  (unify_unifying hs a b).ne_foreign hv hs ho (by simpa [Unifying.PairsOver] using ⟨ha, hb⟩) i

/-- There is always an answer. -/
theorem unify_ne_broken (hs : s.Acyclic) (a b : Ty) (f : Fault) : (s.unify a b).2 ≠ some (.broken f) :=
  (unify_unifying hs a b).ne_broken f

/-- Types that some solution makes equal are unified. -/
theorem unify_eq_none (hs : s.Acyclic) (ho : s.Over .whole) (ha : a.Over .whole s.size)
    (hb : b.Over .whole s.size) {σ : Int → Ty} (hσ : s.SolvedBy σ) (h : a.subst σ = b.subst σ) :
    (s.unify a b).2 = none := by
  by_contra hne
  exact (unify_unifying hs a b).unsolvable hs ho (by simpa [Unifying.PairsOver] using ⟨ha, hb⟩) hne
    hσ (by simpa using h)

/-- After success both types resolve to the same type. -/
theorem resolve_eq_of_unify (hs : s.Acyclic) (h : (s.unify a b).2 = none) :
    (s.unify a b).1.resolve a = (s.unify a b).1.resolve b := by
  have hsolved := solvedBy_resolve_var (unify_acyclic hs a b)
  rw [resolve_eq_subst, resolve_eq_subst _ b]
  exact ((unify_solvedBy hs h).mp hsolved).2

/-- Unification finds a most general unifier of types without gaps over the variables of the store, and
fails only if they have no unifier. -/
theorem unify_mostGeneral (hs : s.Acyclic) (ho : s.Over .whole) (ha : a.Over .whole s.size)
    (hb : b.Over .whole s.size) :
    (∀ s', s.unify a b = (s', none) → s'.resolve a = s'.resolve b ∧
      ∀ σ, s'.SolvedBy σ ↔ s.SolvedBy σ ∧ a.subst σ = b.subst σ) ∧
    ∀ s' e, s.unify a b = (s', some e) → ∀ σ, s.SolvedBy σ → a.subst σ ≠ b.subst σ := by
  refine ⟨fun s' h => ?_, fun s' e h σ hσ heq => ?_⟩
  · have hnone : (s.unify a b).2 = none := by rw [h]
    have hres := resolve_eq_of_unify hs hnone
    have hsol := @unify_solvedBy s a b hs hnone
    rw [h] at hres hsol
    exact ⟨hres, fun σ => hsol⟩
  · have hnone := unify_eq_none hs ho ha hb hσ heq
    rw [h] at hnone
    cases hnone

end

/-- Three variables, the first bound to an array of the second. -/
def linked : Store := ((freshList 3 empty).2.unify (.var 0) (.array (.var 1))).1

/-- The types `Function1<'_0, '_2>` and `Function1<'_2, Array<Int>>` share a variable with the binding
of the store and are unified; no solution makes `'_1` and `Array<'_0>` equal. -/
theorem unify_mostGeneral_linked :
    (linked.unify (.function [.var 0] (.var 2)) (.function [.var 2] (.array .int)) =
        (⟨#[.array (.var 1), .int, .array (.var 1)]⟩, none) ∧
      ∀ σ, SolvedBy ⟨#[.array (.var 1), .int, .array (.var 1)]⟩ σ ↔ linked.SolvedBy σ ∧
        (Ty.function [.var 0] (.var 2)).subst σ = (Ty.function [.var 2] (.array .int)).subst σ) ∧
    linked.unify (.var 1) (.array (.var 0)) =
        (linked, some (.infinite 1 (.array (.array (.var 1))))) ∧
      ∀ σ, linked.SolvedBy σ → (Ty.var 1).subst σ ≠ (Ty.array (.var 0)).subst σ := by
  have hfresh : (freshList 3 empty).2.Acyclic := acyclic_empty.freshList 3
  have hnone : (freshList 3 empty).2.Over .whole := by
    intro i t h
    rw [binding?_freshList, binding?_empty] at h
    cases h
  have hvar : ∀ i : Int, 0 ≤ i → i < 3 → (Ty.var i).Over .whole 3 := fun i h0 hi => .var h0 hi
  have h0 := hvar 0 (by simp) (by simp)
  have h1 := hvar 1 (by simp) (by simp)
  have h2 := hvar 2 (by simp) (by simp)
  have hs : linked.Acyclic := unify_acyclic hfresh _ _
  have ho : linked.Over .whole := unify_over hfresh hnone h0 h1.array
  have hleft : (Ty.function [.var 0] (.var 2)).Over .whole 3 := .function (by simpa using h0) h2
  have hright : (Ty.function [.var 2] (.array .int)).Over .whole 3 :=
    .function (by simpa using h2) (.array (.const trivial))
  have hok := unify_mostGeneral hs ho hleft hright
  have hfail := unify_mostGeneral hs ho h1 h0.array
  have hunify : linked.unify (.function [.var 0] (.var 2)) (.function [.var 2] (.array .int)) =
    (⟨#[.array (.var 1), .int, .array (.var 1)]⟩, none) := by rfl
  have hstop : linked.unify (.var 1) (.array (.var 0)) =
    (linked, some (.infinite 1 (.array (.array (.var 1))))) := by rfl
  exact ⟨⟨hunify, (hok.1 _ hunify).2⟩, hstop, hfail.2 _ _ hstop⟩

end Polytype.Store
