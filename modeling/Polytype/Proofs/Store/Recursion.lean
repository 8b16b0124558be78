import Mathlib
import Polytype.Proofs.Store.Termination

/-!
# The recursion of unification

In an acyclic store unification does not depend on its budget. It satisfies the equations of the plain
algorithm: both types are followed to the ends of their chains, and below two constructors the
arguments are unified from left to right (`Acyclic.unify_eq`). `Acyclic.unify_induct` is the induction
along these equations.
-/

namespace Polytype.Store

/-- Unifies lists of types from left to right, up to the first error. -/
def unifyEach : List Ty → List Ty → Store → Unified
  | a :: as, b :: bs, s =>
    match s.unify a b with
    | (s, none) => unifyEach as bs s
    | failed => failed
  | [], _, s => (s, none)
  | _ :: _, [], s => (s, some (.broken .outOfRange))

/-- Unifies two constructors. -/
def unifyCons : Ty → Ty → Store → Unified
  | .con n as, .con m bs, s =>
    if Ty.sameShape n as m bs then unifyEach as bs s else s.mismatch (.con n as) (.con m bs)
  | a, b, s => s.mismatch a b

variable {s : Store}

theorem unifyEach_next {s' : Store} {a b : Ty} (h : s.unify a b = (s', none)) (as bs : List Ty) :
    unifyEach (a :: as) (b :: bs) s = unifyEach as bs s' := by
  rw [unifyEach, h]

theorem unifyEach_stop {s' : Store} {a b : Ty} {e : UnifyError} (h : s.unify a b = (s', some e))
    (as bs : List Ty) : unifyEach (a :: as) (b :: bs) s = (s', some e) := by
  rw [unifyEach, h]

theorem Acyclic.unifyArgsLoop_each (hs : s.Acyclic) (as bs : List Ty) :
    unifyArgsLoop as bs s = some (unifyEach as bs s) := by
  induction as generalizing bs s with
  | nil => rw [unifyArgsLoop_nil, unifyEach]
  | cons a as ih =>
    cases bs with
    | nil => rw [unifyArgsLoop_cons_nil, unifyEach]
    | cons b bs =>
      have ha := unify_acyclic hs a b
      rw [unifyArgsLoop_cons, hs.unifyLoop_eq, unifyEach]
      generalize s.unify a b = first at ha ⊢
      obtain ⟨s', e⟩ := first
      cases e with
      | none => exact ih ha bs
      | some e => rfl

/-- Unification looks at the ends of two chains of bindings. -/
theorem Acyclic.unify_eq (hs : s.Acyclic) (a b : Ty) :
    s.unify a b = s.meet unifyCons (s.find a) (s.find b) := by
  have hmeet : unifyLoop (s.find a) (s.find b) s =
      some (s.meet unifyCons (s.find a) (s.find b)) := by
    refine hs.unifyLoop_meet (hs.find_find a) (hs.find_find b) ?_
    intro n as m bs ha hb
    have hargs := hs.unifyArgsLoop_each as bs
    rw [unifyArgsLoop] at hargs
    rw [ha, hb, unifyLoop_unfold, unifyOnce, findLoop_con, findLoop_con, unifyCons]
    simp only [Option.bind_eq_bind, Option.bind_some, hargs, hs.mismatchLoop_eq]
    split <;> rfl
  have hloop := hs.unifyLoop_eq a b
  rw [hs.unifyLoop_find, hmeet] at hloop
  exact (Option.some.inj hloop).symm

/-- How two types at the ends of their chains are made equal. -/
inductive Joins (s : Store) : Ty → Ty → Store → Prop
  | same {i : Int} : s.owns i = true → Joins s (.var i) (.var i) s
  | bind {a b t : Ty} {i : Int} : Picks a b i t → s.owns i = true →
      (∀ j, t = .var j → s.owns j = true) → s.occurs i t = false → Joins s a b (s.bind i t)
  | args {n : String} {as bs : List Ty} {s' : Store} : as.length = bs.length →
      unifyEach as bs s = (s', none) → Joins s (.con n as) (.con n bs) s'

theorem bindVar_eq_none {s' : Store} {i : Int} {t : Ty} (hi : s.owns i = true)
    (h : s.bindVar i t = (s', none)) : s.occurs i t = false ∧ s' = s.bind i t := by
  rw [bindVar_eq hi] at h
  split at h
  · cases h
  · rename_i ho
    cases h
    exact ⟨by simpa using ho, rfl⟩

/-- A variable at the end of a chain is refused unless the store owns it. -/
theorem owns_of_meet {jump : Ty → Ty → Store → Unified} {s' : Store} {a b : Ty}
    (h : s.meet jump a b = (s', none)) {v : Int} (hv : a = .var v ∨ b = .var v) :
    s.owns v = true := by
  by_contra hn
  rw [Bool.not_eq_true] at hn
  rcases hv with rfl | rfl
  · cases b <;> simp [meet, hn] at h
  · cases a with
    | absent => simp [meet, mismatch] at h
    | var i => cases hi : s.owns i <;> simp [meet, hi, hn] at h
    | con n as => simp [meet, hn] at h

theorem joins_of_meet {s' : Store} {a b : Ty} (h : s.meet unifyCons a b = (s', none)) :
    Joins s a b s' := by
  cases a with
  | absent => simp [meet, mismatch] at h
  | var i =>
    have hi : s.owns i = true := owns_of_meet h (.inl rfl)
    cases b with
    | absent =>
      obtain ⟨ho, rfl⟩ := bindVar_eq_none hi (by simpa [meet, hi] using h)
      exact .bind (.left (by simp)) hi (by simp) ho
    | var j =>
      have hj : s.owns j = true := owns_of_meet h (.inr rfl)
      by_cases hij : i = j
      · subst hij
        simp only [meet, hi] at h
        cases h
        exact .same hi
      · obtain ⟨ho, rfl⟩ := bindVar_eq_none hi (by simpa [meet, hi, hj, hij] using h)
        refine .bind (.left (by simpa using Ne.symm hij)) hi (fun k hk => ?_) ho
        cases hk
        exact hj
    | con m bs =>
      obtain ⟨ho, rfl⟩ := bindVar_eq_none hi (by simpa [meet, hi] using h)
      exact .bind (.left (by simp)) hi (by simp) ho
  | con n as =>
    cases b with
    | absent => simp [meet, mismatch] at h
    | var j =>
      have hj : s.owns j = true := owns_of_meet h (.inr rfl)
      obtain ⟨ho, rfl⟩ := bindVar_eq_none hj (by simpa [meet, hj] using h)
      exact .bind .right hj (by simp) ho
    | con m bs =>
      rw [meet, unifyCons] at h
      split at h
      · rename_i hsh
        rw [Ty.sameShape, Bool.and_eq_true, beq_iff_eq, beq_iff_eq] at hsh
        obtain ⟨rfl, hl⟩ := hsh
        exact .args hl h
      · simp [mismatch] at h

/-- Unification succeeds in three ways. -/
theorem Acyclic.joins (hs : s.Acyclic) {s' : Store} {a b : Ty} (h : s.unify a b = (s', none)) :
    Joins s (s.find a) (s.find b) s' :=
  joins_of_meet (hs.unify_eq a b ▸ h)

/-- One step of unification returns what unification returns, if that holds of two lists of arguments. -/
theorem Acyclic.unifyOnce_unify (hs : s.Acyclic) {self : Ty × Ty × Store → Option Unified} {a b : Ty}
    {r : Unified} (hr : unifyOnce self (a, b, s) = some r)
    (hargs : ∀ n as m bs, s.find a = .con n as → s.find b = .con m bs →
      Ty.sameShape n as m bs = true → unifyArgsBy self as bs s = some r → r = unifyEach as bs s) :
    r = s.unify a b := by
  rw [unifyOnce, hs.findLoop_eq, hs.findLoop_eq] at hr
  simp only [Option.bind_eq_bind, Option.bind_some, hs.bindVarLoop_eq, hs.mismatchLoop_eq] at hr
  rw [hs.unify_eq]
  cases ha : s.find a with
  | absent => simp_all [meet]
  | var i => cases hb : s.find b <;> simp only [ha, hb, meet] at hr ⊢ <;> split_ifs at hr ⊢ <;> simp_all
  | con n as =>
    cases hb : s.find b with
    | absent => simp_all [meet]
    | var j => simp only [ha, hb, meet] at hr ⊢; split_ifs at hr ⊢ <;> simp_all
    | con m bs =>
      cases hsh : Ty.sameShape n as m bs with
      | true =>
        simp only [ha, hb, hsh, if_true] at hr
        simpa [meet, unifyCons, hsh] using hargs n as m bs ha hb hsh hr
      | false => simp_all [meet, unifyCons]

/-- What is known of single pairs carries over to lists of arguments. -/
theorem unifyArgsBy_each {motive : Ty → Ty → Store → Prop} {each : List Ty → List Ty → Store → Prop}
    (nil : ∀ as bs s, as = [] ∨ bs = [] → each as bs s)
    (cons : ∀ a as b bs s, s.Acyclic → motive a b s →
      (∀ s', s.unify a b = (s', none) → each as bs s') → each (a :: as) (b :: bs) s)
    {self : Ty × Ty × Store → Option Unified}
    (hself : ∀ p r, self p = some r → p.2.2.Acyclic →
      r = p.2.2.unify p.1 p.2.1 ∧ motive p.1 p.2.1 p.2.2)
    {as bs : List Ty} {r : Unified} (hr : unifyArgsBy self as bs s = some r) (hs : s.Acyclic) :
    r = unifyEach as bs s ∧ each as bs s := by
  induction as generalizing bs s with
  | nil => exact ⟨by simpa [unifyArgsBy, unifyEach, eq_comm] using hr, nil _ _ _ (.inl rfl)⟩
  | cons a as ih =>
    cases bs with
    | nil => exact ⟨by simpa [unifyArgsBy, unifyEach, eq_comm] using hr, nil _ _ _ (.inr rfl)⟩
    | cons b bs =>
      obtain ⟨first, hfirst, hrest⟩ := Option.bind_eq_some_iff.mp hr
      obtain ⟨heq, hab⟩ := hself (a, b, s) first hfirst hs
      obtain ⟨s', e⟩ := first
      have hs' : s'.Acyclic := by simpa [← heq] using unify_acyclic hs a b
      cases e with
      | none =>
        obtain ⟨hr', hnext⟩ := ih hrest hs'
        rw [unifyEach_next heq.symm]
        refine ⟨hr', cons a as b bs s hs hab ?_⟩
        intro s'' h''
        rw [← heq, Prod.mk.injEq] at h''
        exact h''.1 ▸ hnext
      | some e =>
        rw [unifyEach_stop heq.symm]
        refine ⟨(Option.some.inj hrest).symm, cons a as b bs s hs hab ?_⟩
        intro s'' h''
        rw [← heq] at h''
        cases h''

/-- Unification of two types goes through pairs of arguments at the ends of their chains; between two
pairs the store changes. -/
theorem Acyclic.unify_induct {motive : Ty → Ty → Store → Prop} {each : List Ty → List Ty → Store → Prop}
    (pair : ∀ a b s, s.Acyclic → (∀ n as m bs, s.find a = .con n as → s.find b = .con m bs →
      Ty.sameShape n as m bs = true → each as bs s) → motive a b s)
    (nil : ∀ as bs s, as = [] ∨ bs = [] → each as bs s)
    (cons : ∀ a as b bs s, s.Acyclic → motive a b s →
      (∀ s', s.unify a b = (s', none) → each as bs s') → each (a :: as) (b :: bs) s)
    (hs : s.Acyclic) (a b : Ty) : motive a b s := by
  -- A step knows only what the motive says of the calls it makes, so this has to name their results.
  have hloop := @unbounded_induct _ _ unifyOnce
    (fun p r => p.2.2.Acyclic → r = p.2.2.unify p.1 p.2.1 ∧ motive p.1 p.2.1 p.2.2) ?_
      (a, b, s) _ (hs.unifyLoop_eq a b)
  · exact (hloop hs).2
  · rintro self hself ⟨a, b, s⟩ r hr hs
    refine ⟨hs.unifyOnce_unify hr fun n as m bs _ _ _ h => (unifyArgsBy_each nil cons hself h hs).1, ?_⟩
    refine pair a b s hs fun n as m bs ha hb hsh => ?_
    rw [unifyOnce, hs.findLoop_eq, hs.findLoop_eq, ha, hb] at hr
    simp only [Option.bind_eq_bind, Option.bind_some, hsh, if_true] at hr
    exact (unifyArgsBy_each nil cons hself hr hs).2

end Polytype.Store
