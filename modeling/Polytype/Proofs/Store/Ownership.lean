import Mathlib
import Polytype.Proofs.Store.Recursion

/-!
# Variables that a store does not own

A store is *closed* if its slots mention only its own variables. Unification looks at a variable where a
chain of bindings ends, and refuses it there unless the store owns it. A type that a variable is bound to
is not searched: a variable of another store can enter below a constructor.

* `Hereditary.unifying` — a property that bindings hand on from a variable to those they mention holds of all
  that unification binds and mentions, if it holds of the variables of the two types.
* `Confined.unify` — so nothing is mentioned after unification but what was mentioned before or occurs in
  the two types.
* `mentions_of_unify` — after success each foreign variable of the two types is mentioned.
* `unify_closed_iff` — so a closed store stays closed exactly if both types have only its own variables.
-/

namespace Polytype.Store

/-- Every slot mentions only variables of the store. -/
def Closed (s : Store) : Prop := ∀ t ∈ s.slots, ∀ v ∈ t.vars, s.owns v = true

/-- Every binding mentions only variables with a property. -/
def Confined (s : Store) (P : Int → Prop) : Prop := ∀ i v, s.Mentions i v → P v

theorem getElem?_of_binding? {s : Store} {i : Int} {t : Ty} (h : s.binding? i = some t) :
    s.slots[i.toNat]? = some t := by
  have hslot : s.slot? i = some t := by
    rw [binding?] at h
    split at h
    · rename_i j hj
      split at h
      · cases h
      · rwa [hj]
    · exact h
  rwa [slot?, if_pos (owns_of_binding? h)] at hslot

theorem binding?_of_getElem? {s : Store} {k : Nat} {t : Ty} (h : s.slots[k]? = some t)
    (hne : t ≠ .var k) : s.binding? k = some t := by
  have hk : k < s.size := (Array.getElem?_eq_some_iff.mp h).1
  have ho : s.owns k = true := by
    rw [owns_iff]
    omega
  have hslot : s.slot? k = some t := by
    rw [slot?, if_pos ho]
    exact h
  rw [binding?, hslot]
  cases t with
  | absent => rfl
  | con n as => rfl
  | var j =>
    have hj : j ≠ k := fun hj => hne (congrArg Ty.var hj)
    simp [hj]

theorem closed_iff {s : Store} : s.Closed ↔ ∀ i v, s.Mentions i v → s.owns v = true := by
  constructor
  · rintro h i v ⟨t, ht, hv⟩
    exact h t (Array.mem_of_getElem? (getElem?_of_binding? ht)) v hv
  · intro h t ht v hv
    obtain ⟨k, hk⟩ := Array.getElem?_of_mem ht
    by_cases hself : t = .var k
    · -- an unbound variable stands in its own slot
      subst hself
      obtain rfl : v = k := by simpa using hv
      have hlt : k < s.size := (Array.getElem?_eq_some_iff.mp hk).1
      rw [owns_iff]
      omega
    · exact h k v ⟨t, binding?_of_getElem? hk hself, hv⟩

/-! ## Where foreign variables come from -/

/-- The variables that the binding of a variable mentions share a property with it. -/
def Hereditary (s : Store) (P : Int → Prop) : Prop := ∀ i v, s.Mentions i v → P i → P v

/-- All variables of pairs of types have a property. -/
def PairsIn (P : Int → Prop) (ws : List (Ty × Ty)) : Prop :=
  ∀ p ∈ ws, (∀ v ∈ p.1.vars, P v) ∧ ∀ v ∈ p.2.vars, P v

theorem PairsIn.descend {P : Int → Prop} {n : String} {as bs : List Ty} {rest : List (Ty × Ty)}
    (h : PairsIn P ((.con n as, .con n bs) :: rest)) : PairsIn P (as.zip bs ++ rest) := by
  obtain ⟨⟨has, hbs⟩, hrest⟩ := List.forall_mem_cons.mp h
  intro p hp
  rcases List.mem_append.mp hp with hp | hp
  · obtain ⟨ha, hb⟩ := List.of_mem_zip (a := p.1) (b := p.2) hp
    exact ⟨fun v hv => has v (by simpa using ⟨p.1, ha, hv⟩),
      fun v hv => hbs v (by simpa using ⟨p.2, hb, hv⟩)⟩
  · exact hrest p hp

theorem Picks.of_pair {P : Int → Prop} {a b t : Ty} {i : Int} (h : Picks a b i t)
    (ha : ∀ v ∈ a.vars, P v) (hb : ∀ v ∈ b.vars, P v) : P i ∧ ∀ v ∈ t.vars, P v := by
  cases h with
  | left => exact ⟨ha i (by simp), hb⟩
  | right => exact ⟨hb i (by simp), ha⟩

namespace Hereditary

variable {s : Store} {P : Int → Prop}

theorem find (hs : s.Acyclic) (h : s.Hereditary P) {t : Ty} (ht : ∀ v ∈ t.vars, P v) :
    ∀ v ∈ (s.find t).vars, P v := by
  induction t using hs.induct with
  | absent => rwa [find_absent]
  | free i hb => rwa [find_free hb]
  | bound i u hb ih =>
    rw [find_bound hs hb]
    exact ih fun v hv => h i v ⟨u, hb, hv⟩ (ht i (by simp))
  | con name args _ => rwa [find_con]

theorem bind (h : s.Hereditary P) {i : Int} {t : Ty} (hi : s.owns i = true) (hne : t ≠ .var i)
    (ht : ∀ v ∈ t.vars, P v) : (s.bind i t).Hereditary P := by
  rintro j v ⟨u, hu, hv⟩
  by_cases hj : j = i
  · subst hj
    rw [binding?_bind_self hi hne] at hu
    cases hu
    exact fun _ => ht v hv
  · rw [binding?_bind_of_ne t hj] at hu
    exact h j v ⟨u, hu, hv⟩

/-- A binding that was not there before binds an unbound variable with the property to a type whose
variables all have it. -/
theorem unifying {ws : List (Ty × Ty)} {r : Unified} (hu : Unifying ws s r) (hs : s.Acyclic)
    (h : s.Hereditary P) (hw : PairsIn P ws) {j : Int} {u : Ty} (hj : r.1.binding? j = some u) :
    s.binding? j = some u ∨ (s.binding? j = none ∧ P j ∧ ∀ v ∈ u.vars, P v) := by
  induction hu with
  | done => exact .inl hj
  | descend _ _ ih => exact ih hs h hw.descend hj
  | chase _ ih =>
    obtain ⟨⟨ha, hb⟩, hrest⟩ := List.forall_mem_cons.mp hw
    exact ih hs h (List.forall_mem_cons.mpr ⟨⟨h.find hs ha, h.find hs hb⟩, hrest⟩) hj
  | same _ ih => exact ih hs h (fun p hp => hw p (List.mem_cons_of_mem _ hp)) hj
  | @bind a b t i rest s r hp hi hfree ho _ ih =>
    obtain ⟨⟨ha, hb⟩, hrest⟩ := List.forall_mem_cons.mp hw
    obtain ⟨hPi, hPt⟩ := hp.of_pair ha hb
    have hnew := ih (hs.bind_of_occurs hi hfree ho) (h.bind hi hp.ne hPt) hrest hj
    by_cases hji : j = i
    · -- the picked variable is bound from here on, so the rest adds nothing to it
      subst hji
      rw [binding?_bind_self hi hp.ne] at hnew
      rcases hnew with heq | ⟨hnone, -⟩
      · cases heq
        exact .inr ⟨hfree, hPi, hPt⟩
      · cases hnone
    · rwa [binding?_bind_of_ne t hji] at hnew
  | stop _ => exact .inl hj

end Hereditary

namespace Confined

variable {s : Store} {P : Int → Prop}

/-- Unification mentions only what was mentioned before or occurs in one of the types. -/
theorem unify (hs : s.Acyclic) (h : s.Confined P) {a b : Ty} (ha : ∀ v ∈ a.vars, P v)
    (hb : ∀ v ∈ b.vars, P v) : (s.unify a b).1.Confined P := by
  rintro i v ⟨t, ht, hv⟩
  have hpairs : PairsIn P [(a, b)] := by simpa [PairsIn] using ⟨ha, hb⟩
  have hher : s.Hereditary P := fun i v hm _ => h i v hm
  rcases hher.unifying (unify_unifying hs a b) hs hpairs ht with hold | ⟨-, -, hvars⟩
  · exact h i v ⟨t, hold, hv⟩
  · exact hvars v hv

end Confined

/-! ## Where they go -/

section

variable {s : Store}

theorem unifyEach_extends (hs : s.Acyclic) (as bs : List Ty) : s.Extends (unifyEach as bs s).1 := by
  induction as generalizing bs s with
  | nil =>
    rw [unifyEach]
    exact .refl s
  | cons a as ih =>
    cases bs with
    | nil =>
      rw [unifyEach]
      exact .refl s
    | cons b bs =>
      have he := unify_extends hs a b
      have ha := unify_acyclic hs a b
      rcases hu : s.unify a b with ⟨s', _ | e⟩
      · rw [hu] at he ha
        rw [unifyEach_next hu]
        exact he.trans (ih ha bs)
      · rw [unifyEach_stop hu]
        rwa [hu] at he

/-- No binding leads away from a foreign variable. -/
theorem find_of_foreign {v : Int} (hv : s.owns v = false) {t : Ty} (ht : v ∈ t.vars) :
    s.find t = t := by
  cases t with
  | absent => exact find_absent s
  | con n as => exact find_con s n as
  | var i =>
    obtain rfl : v = i := by simpa using ht
    exact find_free (binding?_of_not_owns hv)

/-- After success the foreign variables of two types are mentioned in bindings. -/
def Surfaces (a b : Ty) (s : Store) : Prop :=
  ∀ s', s.unify a b = (s', none) → ∀ v, v ∈ a.vars ∨ v ∈ b.vars → s.owns v = false →
    ∃ i, s'.Mentions i v

/-- The same for two lists of arguments. -/
def SurfacesEach (as bs : List Ty) (s : Store) : Prop :=
  as.length = bs.length → ∀ s', unifyEach as bs s = (s', none) → ∀ v,
    v ∈ as.flatMap Ty.vars ∨ v ∈ bs.flatMap Ty.vars → s.owns v = false → ∃ i, s'.Mentions i v

/-- The variable is on the side that is bound to, or below a pair of constructors: at the end of a chain
it would have been refused. -/
theorem surfaces_pair (a b : Ty) (s : Store) (hs : s.Acyclic)
    (hargs : ∀ n as m bs, s.find a = .con n as → s.find b = .con m bs →
      Ty.sameShape n as m bs = true → SurfacesEach as bs s) : Surfaces a b s := by
  intro s' h v hv hf
  have hfound : v ∈ (s.find a).vars ∨ v ∈ (s.find b).vars :=
    hv.imp (fun hv => by rwa [find_of_foreign hf hv]) fun hv => by rwa [find_of_foreign hf hv]
  generalize ha : s.find a = ta at hfound
  generalize hb : s.find b = tb at hfound
  have hj := hs.joins h
  rw [ha, hb] at hj
  have hown : ∀ i, s.owns i = true → v ≠ i := by
    rintro i hi rfl
    rw [hf] at hi
    cases hi
  cases hj with
  | same hi => exact absurd hfound (by simpa using hown _ hi)
  | @bind _ _ t i hp hi hvar _ =>
    refine ⟨i, t, binding?_bind_self hi hp.ne, ?_⟩
    cases hp with
    | left => exact hfound.resolve_left (by simpa using hown _ hi)
    | right => exact hfound.resolve_right (by simpa using hown _ hi)
  | @args n as bs _ hl hu =>
    have hsh : Ty.sameShape n as n bs = true := by simp [Ty.sameShape, hl]
    exact hargs n as n bs ha hb hsh hl s' hu v (by simpa using hfound) hf

theorem surfacesEach_nil (as bs : List Ty) (s : Store) (h : as = [] ∨ bs = []) :
    SurfacesEach as bs s := by
  intro hl s' _ v hv _
  obtain ⟨rfl, rfl⟩ : as = [] ∧ bs = [] := by
    rcases h with rfl | rfl
    · exact ⟨rfl, List.length_eq_zero_iff.mp hl.symm⟩
    · exact ⟨List.length_eq_zero_iff.mp hl, rfl⟩
  simp at hv

theorem surfacesEach_cons (a : Ty) (as : List Ty) (b : Ty) (bs : List Ty) (s : Store)
    (hs : s.Acyclic) (hab : Surfaces a b s)
    (hrest : ∀ s', s.unify a b = (s', none) → SurfacesEach as bs s') :
    SurfacesEach (a :: as) (b :: bs) s := by
  intro hl s' h v hv hf
  rcases hu : s.unify a b with ⟨s₁, _ | e⟩
  · have he := unify_extends hs a b
    have hs₁ := unify_acyclic hs a b
    rw [hu] at he hs₁
    rw [unifyEach_next hu] at h
    simp only [List.flatMap_cons, List.mem_append] at hv
    by_cases hfirst : v ∈ a.vars ∨ v ∈ b.vars
    · -- the rest keeps the binding that the first pair has added
      obtain ⟨i, t, ht, hvt⟩ := hab s₁ hu v hfirst hf
      have hkept := unifyEach_extends hs₁ as bs
      rw [h] at hkept
      exact ⟨i, t, hkept.kept i t ht, hvt⟩
    · refine hrest s₁ hu (by simpa using hl) s' h v (by tauto) ?_
      rw [owns, he.size]
      exact hf
  · rw [unifyEach_stop hu] at h
    cases h

theorem mentions_of_unify (hs : s.Acyclic) (a b : Ty) : Surfaces a b s :=
  hs.unify_induct surfaces_pair surfacesEach_nil surfacesEach_cons a b

end

/-! ## Closed stores -/

/-- A closed store stays closed through unification exactly if both types have only its own variables.
A foreign variable is refused at the end of a chain of bindings; deeper it enters the store, in a slot that
was unbound. -/
theorem unify_closed_iff {s s' : Store} {a b : Ty} (hs : s.Acyclic) (hc : s.Closed)
    (h : s.unify a b = (s', none)) :
    (s'.Closed ↔ ∀ v, v ∈ a.vars ∨ v ∈ b.vars → s.owns v = true) ∧
    (∀ v, s.find a = .var v ∨ s.find b = .var v → s.owns v = true) ∧
    ∀ i v, s'.Mentions i v → s'.owns v = false →
      s.binding? i = none ∧ (v ∈ a.vars ∨ v ∈ b.vars) := by
  have he := unify_extends hs a b
  rw [h] at he
  have howns : ∀ v, s'.owns v = s.owns v := fun v => by rw [owns, he.size, owns]
  rw [closed_iff] at hc
  have hconf : ∀ i v, s'.Mentions i v → s.owns v = true ∨ v ∈ a.vars ∨ v ∈ b.vars := by
    have := Confined.unify (P := fun v => s.owns v = true ∨ v ∈ a.vars ∨ v ∈ b.vars) hs
      (fun i v hv => .inl (hc i v hv)) (fun v hv => .inr (.inl hv)) fun v hv => .inr (.inr hv)
    rwa [h] at this
  refine ⟨⟨fun hc' v hv => ?_, fun hv => ?_⟩, fun v hv => ?_, fun i v hm hf => ⟨?_, ?_⟩⟩
  · by_contra hf
    rw [Bool.not_eq_true] at hf
    obtain ⟨i, hm⟩ := mentions_of_unify hs a b s' h v hv hf
    have := closed_iff.mp hc' i v hm
    rw [howns, hf] at this
    cases this
  · refine closed_iff.mpr fun i v hm => ?_
    rw [howns]
    exact (hconf i v hm).elim id (hv v)
  · rw [hs.unify_eq] at h
    exact owns_of_meet h hv
  · rw [howns] at hf
    by_contra hb
    obtain ⟨u, hu⟩ := Option.ne_none_iff_exists'.mp hb
    obtain ⟨t, ht, hvt⟩ := hm
    obtain rfl : u = t := Option.some.inj ((he.kept i u hu).symm.trans ht)
    have := hc i v ⟨u, hu, hvt⟩
    rw [hf] at this
    cases this
  · rw [howns] at hf
    exact (hconf i v hm).resolve_left (by simp [hf])

/-- Below a constructor a variable that does not belong to the store enters it, and is refused as soon as it
is reached. -/
theorem unify_closed_iff_below :
    (freshList 2 empty).2.Closed ∧
    (freshList 2 empty).2.unify (.function [.var 0] .int) (.function [.array (.var 40)] .int) =
      (⟨#[.array (.var 40), .var 1]⟩, none) ∧
    ¬ Closed ⟨#[.array (.var 40), .var 1]⟩ ∧
    (freshList 2 empty).2.unify (.array .int) (.array (.var 40)) =
      ((freshList 2 empty).2, some (.foreign 40)) := by
  have hc : (freshList 2 empty).2.Closed := by
    rw [closed_iff]
    rintro i v ⟨t, ht, _⟩
    rw [binding?_freshList, binding?_empty] at ht
    cases ht
  have hu : (freshList 2 empty).2.unify (.function [.var 0] .int) (.function [.array (.var 40)] .int) =
      (⟨#[.array (.var 40), .var 1]⟩, none) := by decide
  refine ⟨hc, hu, ?_, by decide⟩
  have hs := acyclic_empty.freshList 2
  intro hclosed
  have := (unify_closed_iff hs hc hu).1.mp hclosed 40 (.inr (by decide))
  cases this

end Polytype.Store
