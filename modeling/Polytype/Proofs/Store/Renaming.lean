import Mathlib
import Polytype.Constraint
import Polytype.Proofs.Infer.Generalization
import Polytype.Proofs.Ty.Renaming

/-!
# Stores with other names for constructors

Everything that is done with a store is done alike with the renamed one: what is bound and found there
is what it was, renamed. Unification and solving may fail for a difference of names only before the
renaming, so where they succeed they succeed afterwards too (`Store.unify_rename`,
`Queue.solveList_rename`).

Closing a type also chooses names, and these may be others in the renamed store; but they are names of
parameters, so that the two schemes correspond (`closing_renames`).
-/

namespace Polytype

namespace Store

variable (h : String → String) (s : Store)

/-- The store with renamed types. -/
def rename : Store := ⟨s.slots.map (Ty.rename h)⟩

/-! ## Slots -/

@[simp] theorem size_rename : (s.rename h).size = s.size := by simp [rename, size]

@[simp] theorem owns_rename (id : Int) : (s.rename h).owns id = s.owns id := by simp [owns]

theorem slot?_rename (id : Int) : (s.rename h).slot? id = (s.slot? id).map (Ty.rename h) := by
  rw [slot?, slot?, owns_rename]
  split
  · simp [rename]
  · rfl

theorem binding?_rename (id : Int) :
    (s.rename h).binding? id = (s.binding? id).map (Ty.rename h) := by
  rw [binding?, binding?, slot?_rename]
  cases s.slot? id with
  | none => rfl
  | some t =>
    cases t with
    | absent => rfl
    | var j =>
      by_cases hj : j = id
      · simp [hj]
      · simp [hj]
    | con name args =>
      obtain ⟨name', heq, _⟩ := Ty.exists_rename_con h name args
      simp [heq]

theorem rename_bind (id : Int) (t : Ty) :
    (s.bind id t).rename h = (s.rename h).bind id (t.rename h) := by
  rw [bind, bind, owns_rename]
  split
  · simp [rename, Array.map_setIfInBounds]
  · rfl

theorem rename_fresh : s.fresh.2.rename h = (s.rename h).fresh.2 := by
  simp [fresh, rename, size]

theorem rename_freshList (n : Nat) :
    (freshList n s).2.rename h = (freshList n (s.rename h)).2 := by
  induction n generalizing s with
  | zero => rfl
  | succ n ih =>
    show (freshList n s.fresh.2).2.rename h = (freshList n (s.rename h).fresh.2).2
    rw [ih, rename_fresh]

theorem mentions_rename : (s.rename h).Mentions = s.Mentions := by
  funext i j
  rw [Mentions, Mentions, binding?_rename]
  refine propext ⟨?_, ?_⟩
  · rintro ⟨t, ht, hj⟩
    obtain ⟨u, hu, rfl⟩ := Option.map_eq_some_iff.mp ht
    rw [Ty.vars_rename] at hj
    exact ⟨u, hu, hj⟩
  · rintro ⟨t, ht, hj⟩
    exact ⟨t.rename h, by rw [ht]; rfl, by rwa [Ty.vars_rename]⟩

variable {s} in
theorem Acyclic.rename (hs : s.Acyclic) : (s.rename h).Acyclic := by
  intro i
  rw [mentions_rename]
  exact hs i

/-! ## Traversals -/

theorem findWithin_rename (hops : Nat) (t : Ty) :
    (s.rename h).findWithin hops (t.rename h) = (s.findWithin hops t).rename h := by
  induction hops generalizing t with
  | zero =>
    rw [findWithin, findWithin]
    · simp
    · simp
  | succ hops ih =>
    cases t with
    | absent => rfl
    | con name args =>
      obtain ⟨name', heq, _⟩ := Ty.exists_rename_con h name args
      rw [heq]
      show Ty.con name' _ = (Ty.con name args).rename h
      rw [heq]
    | var id =>
      rw [Ty.rename_var, findWithin, findWithin, binding?_rename]
      cases s.binding? id with
      | none => rfl
      | some u => exact ih u

theorem find_rename (t : Ty) : (s.rename h).find (t.rename h) = (s.find t).rename h := by
  rw [find, find, size_rename, findWithin_rename]

theorem resolveWithin_rename (hops : Nat) (t : Ty) :
    (s.rename h).resolveWithin hops (t.rename h) = (s.resolveWithin hops t).rename h := by
  induction hops generalizing t with
  | zero => rfl
  | succ hops ih =>
    rw [resolveWithin, resolveWithin, Ty.rename_subst]
    refine Ty.subst_congr fun i _ => ?_
    rw [binding?_rename]
    cases s.binding? i with
    | none => rfl
    | some u => exact ih u

theorem resolve_rename (t : Ty) : (s.rename h).resolve (t.rename h) = (s.resolve t).rename h := by
  rw [resolve, resolve, size_rename, resolveWithin_rename]

theorem occursWithin_rename (id : Int) (hops : Nat) (t : Ty) :
    (s.rename h).occursWithin id hops (t.rename h) = s.occursWithin id hops t := by
  induction hops generalizing t with
  | zero => rw [occursWithin, occursWithin, Ty.vars_rename]
  | succ hops ih =>
    rw [occursWithin, occursWithin, Ty.vars_rename]
    congr 1
    funext j
    rw [binding?_rename]
    cases s.binding? j with
    | none => rfl
    | some u => exact ih u

theorem occurs_rename (id : Int) (t : Ty) :
    (s.rename h).occurs id (t.rename h) = s.occurs id t := by
  rw [occurs, occurs, size_rename, occursWithin_rename]

theorem openWithin_rename (hops : Nat) (t : Ty) :
    (s.rename h).openWithin hops (t.rename h) = s.openWithin hops t := by
  induction hops generalizing t with
  | zero =>
    rw [openWithin, openWithin, Ty.vars_rename]
    exact List.filter_congr fun v _ => owns_rename h s v
  | succ hops ih =>
    rw [openWithin, openWithin, Ty.vars_rename]
    congr 1
    funext j
    rw [binding?_rename, owns_rename]
    cases s.binding? j with
    | none => rfl
    | some u => exact ih u

theorem free_rename (t : Ty) : (s.rename h).free (t.rename h) = s.free t := by
  rw [free, free, collect, collect, size_rename, openWithin_rename]

/-! ## Unification -/

variable {h} {s}

/-- Where unification succeeds with the first function, it does with the second on renamed types and
stores, and the result is the renamed one. -/
def AlikeRenamed (h : String → String) (f f' : Ty → Ty → Store → Unified) (a : Ty) : Prop :=
  ∀ {b : Ty} {s s' : Store}, f a b s = (s', none) →
    f' (a.rename h) (b.rename h) (s.rename h) = (s'.rename h, none)

theorem bindVar_rename {s' : Store} {id : Int} {t : Ty} (hb : s.bindVar id t = (s', none)) :
    (s.rename h).bindVar id (t.rename h) = (s'.rename h, none) := by
  rw [bindVar] at hb ⊢
  rw [occurs_rename]
  cases ho : s.occurs id t with
  | true => simp [ho] at hb
  | false =>
    rw [ho, bind?] at hb
    rw [bind?, owns_rename]
    cases hown : s.owns id with
    | false => simp [hown] at hb
    | true =>
      obtain rfl : s.bind id t = s' := by simpa [hown] using hb
      simp [rename_bind]

theorem meet_rename {jump jump' : Ty → Ty → Store → Unified} (hj : ∀ a, AlikeRenamed h jump jump' a)
    {a b : Ty} {s' : Store} (hm : s.meet jump a b = (s', none)) :
    (s.rename h).meet jump' (a.rename h) (b.rename h) = (s'.rename h, none) := by
  cases a with
  | absent => cases b <;> simp [meet, mismatch] at hm
  | con n as =>
    obtain ⟨n', hn, _⟩ := Ty.exists_rename_con h n as
    cases b with
    | absent => simp [meet, mismatch] at hm
    | con m bs =>
      have hjump := hj _ hm
      obtain ⟨m', hm', _⟩ := Ty.exists_rename_con h m bs
      rw [hn, hm'] at hjump ⊢
      exact hjump
    | var j =>
      rw [meet] at hm
      cases hown : s.owns j with
      | false => simp [hown] at hm
      | true =>
        have hb := bindVar_rename (h := h) (by simpa [hown] using hm)
        rw [hn] at hb ⊢
        simpa [meet, hown] using hb
  | var i =>
    cases hown : s.owns i with
    | false => cases b <;> simp [meet, hown] at hm
    | true =>
      cases b with
      | absent =>
        have hb := bindVar_rename (h := h) (by simpa [meet, hown] using hm)
        simpa [meet, hown] using hb
      | con m bs =>
        have hb := bindVar_rename (h := h) (by simpa [meet, hown] using hm)
        obtain ⟨m', hm', _⟩ := Ty.exists_rename_con h m bs
        rw [hm'] at hb ⊢
        simpa [meet, hown] using hb
      | var j =>
        cases hown' : s.owns j with
        | false => simp [meet, hown, hown'] at hm
        | true =>
          by_cases hij : i = j
          · obtain rfl : s = s' := by simpa [meet, hown, hij, hown'] using hm
            simp [meet, hij, hown']
          · have hb := bindVar_rename (h := h) (by simpa [meet, hown, hown', hij] using hm)
            simpa [meet, hown, hown', hij] using hb

theorem unifyArgs_rename {jump jump' : Ty → Ty → Store → Unified} {as : List Ty}
    (ih : ∀ a ∈ as, AlikeRenamed h (unifyStep jump) (unifyStep jump') a) {bs : List Ty}
    {s s' : Store} (hu : unifyArgs jump as bs s = (s', none)) :
    unifyArgs jump' (as.map (Ty.rename h)) (bs.map (Ty.rename h)) (s.rename h) =
      (s'.rename h, none) := by
  induction as generalizing bs s with
  | nil =>
    obtain rfl : s = s' := by simpa [unifyArgs] using hu
    simp [unifyArgs]
  | cons a as ihs =>
    rw [List.forall_mem_cons] at ih
    cases bs with
    | nil => simp [unifyArgs] at hu
    | cons b bs =>
      rw [unifyArgs] at hu
      rw [List.map_cons, List.map_cons, unifyArgs]
      cases hfirst : unifyStep jump a b s with
      | mk s₁ e =>
        rw [hfirst] at hu
        cases e with
        | some e => simp at hu
        | none =>
          rw [ih.1 hfirst]
          exact ihs ih.2 hu

theorem unifyStep_rename {jump jump' : Ty → Ty → Store → Unified}
    (hj : ∀ a, AlikeRenamed h jump jump' a) (a : Ty) :
    AlikeRenamed h (unifyStep jump) (unifyStep jump') a := by
  have hmeet : ∀ {a b : Ty}, ((∀ n as, a ≠ .con n as) ∨ ∀ m bs, b ≠ .con m bs) →
      ((∀ n as, a.rename h ≠ .con n as) ∨ ∀ m bs, b.rename h ≠ .con m bs) →
      ∀ {s s' : Store}, unifyStep jump a b s = (s', none) →
        unifyStep jump' (a.rename h) (b.rename h) (s.rename h) = (s'.rename h, none) := by
    intro a b hab hab' s s' hu
    rw [unifyStep_of_not_con s hab] at hu
    rw [unifyStep_of_not_con _ hab', find_rename, find_rename]
    exact meet_rename hj hu
  induction a with
  | absent => exact fun hu => hmeet (by simp) (by simp) hu
  | var i => exact fun hu => hmeet (by simp) (by simp) hu
  | con n as ih =>
    intro b s s' hu
    cases b with
    | absent => exact hmeet (by simp) (by simp) hu
    | var j => exact hmeet (by simp) (by simp) hu
    | con m bs =>
      rw [unifyStep] at hu
      cases hsh : Ty.sameShape n as m bs with
      | false => simp [hsh, mismatch] at hu
      | true =>
        -- two constructors of one name have one name afterwards
        obtain ⟨rfl, hlen⟩ : n = m ∧ as.length = bs.length := by simpa [Ty.sameShape] using hsh
        obtain ⟨n', hn, hn'⟩ := Ty.exists_rename_con h n as
        obtain ⟨m', hm, hm'⟩ := Ty.exists_rename_con h n bs
        have hnil : as = [] ↔ bs = [] := by
          rw [← List.length_eq_zero_iff, ← List.length_eq_zero_iff, hlen]
        have hname : n' = m' := by
          rw [hn', hm']
          simp only [hnil]
        rw [hn, hm, ← hname, unifyStep]
        rw [if_pos (by simp [Ty.sameShape, hlen])]
        exact unifyArgs_rename ih (by simpa [hsh] using hu)

theorem unifyWithin_rename (jumps : Nat) (a : Ty) :
    AlikeRenamed h (unifyWithin jumps) (unifyWithin jumps) a := by
  induction jumps generalizing a with
  | zero =>
    intro b s s' hu
    simp [unifyWithin] at hu
  | succ jumps ih => exact unifyStep_rename ih a

/-- Types that unify do so after renaming, with the renamed result. -/
theorem unify_rename {a b : Ty} {s' : Store} (hu : s.unify a b = (s', none)) :
    (s.rename h).unify (a.rename h) (b.rename h) = (s'.rename h, none) := by
  rw [unify, size_rename]
  exact unifyWithin_rename _ a hu

end Store

/-! ## Constraints -/

/-- A constraint with renamed types, on behalf of any expression. -/
def Constraint.Renames (h : String → String) (c c' : Constraint) : Prop :=
  c'.expected = c.expected.rename h ∧ c'.actual = c.actual.rename h

theorem Queue.solveList_rename {h : String → String} {cs cs' : List Constraint}
    (hcs : List.Forall₂ (Constraint.Renames h) cs cs') {s s' : Store}
    (hs : solveList s cs = (s', none)) : solveList (s.rename h) cs' = (s'.rename h, none) := by
  induction hcs generalizing s with
  | nil =>
    cases hs
    rfl
  | @cons c c' cs cs' hc _ ih =>
    rw [solveList, Traversals.unify_eq] at hs ⊢
    cases hu : s.unify c.expected c.actual with
    | mk s₁ e =>
      rw [hu] at hs
      cases e with
      | some e => simp at hs
      | none =>
        rw [hc.1, hc.2, Store.unify_rename hu]
        exact ih hs

/-! ## Closing a type -/

section

variable {h : String → String} {s : Store} {env env' : Env}

theorem mem_varsUnder_rename (henv : env.Rel (fun _ => Scheme.Renames h) env') {v : Int} :
    v ∈ env'.varsUnder (s.rename h).resolve ↔ v ∈ env.varsUnder s.resolve := by
  have hvar : ∀ i, ((s.rename h).resolve (.var i)).vars = (s.resolve (.var i)).vars := fun i => by
    rw [← Ty.rename_var h i, Store.resolve_rename, Ty.vars_rename, Ty.rename_var]
  rw [Env.mem_varsUnder, Env.mem_varsUnder]
  constructor
  · rintro ⟨x, g', hx, hv⟩
    obtain ⟨g, hg, hr⟩ := henv.lookup_right hx
    rw [Store.resolve_eq_subst] at hv
    obtain ⟨i, hi, hv⟩ := Ty.mem_vars_subst.mp hv
    refine ⟨x, g, hg, ?_⟩
    rw [Store.resolve_eq_subst]
    exact Ty.mem_vars_subst.mpr ⟨i, hr.mem_vars.mp hi, hvar i ▸ hv⟩
  · rintro ⟨x, g, hx, hv⟩
    obtain ⟨g', hg, hr⟩ := henv.lookup hx
    rw [Store.resolve_eq_subst] at hv
    obtain ⟨i, hi, hv⟩ := Ty.mem_vars_subst.mp hv
    refine ⟨x, g', hg, ?_⟩
    rw [Store.resolve_eq_subst]
    exact Ty.mem_vars_subst.mpr ⟨i, hr.mem_vars.mpr hi, (hvar i).symm ▸ hv⟩

theorem generalizable_rename (henv : env.Rel (fun _ => Scheme.Renames h) env') (t : Ty) :
    (s.rename h).generalizable env' (t.rename h) = s.generalizable env t := by
  have hfilter : (s.resolve t).vars.filter (s.rename h).owns = (s.resolve t).vars.filter s.owns :=
    List.filter_congr fun v _ => Store.owns_rename h s v
  rw [Store.generalizable, Store.generalizable, Store.resolve_rename, Ty.vars_rename, hfilter]
  exact firstsNotIn_congr fun v => mem_varsUnder_rename henv

theorem Closes.renames {t : Ty} {scope scope' : Expr} {g g' : Scheme} {store? store?' : Option Store}
    (hc : Closes s env t scope g store?)
    (hc' : Closes (s.rename h) env' (t.rename h) scope' g' store?')
    (henv : env.Rel (fun _ => Scheme.Renames h) env') : Scheme.Renames h g g' := by
  have hids := generalizable_rename (s := s) henv t
  have hlen : g'.params.length = g.params.length := by rw [hc'.length, hids, hc.length]
  refine ⟨hlen, fun args ha => ?_⟩
  have ha' : (args.map (Ty.rename h)).length = g'.params.length := by
    rw [List.length_map, hlen, ha]
  rw [← Scheme.applyUnder_eq_apply (fun _ _ => rfl), hc'.applyUnder ha',
    ← Scheme.applyUnder_eq_apply (fun _ _ => rfl), hc.applyUnder ha, hids, Store.resolve_rename,
    Ty.rename_subst]
  refine Ty.subst_congr fun i _ => ?_
  rw [assign, assign, lookup_zip_map]
  cases ((s.generalizable env t).zip args).lookup i <;> rfl

/-- The schemes are the same if none of the constructors of the first is renamed. -/
theorem Closes.eq_iff {t : Ty} {scope : Expr} {g g' : Scheme} {store? store?' : Option Store}
    (hc : Closes s env t scope g store?)
    (hc' : Closes (s.rename h) env' (t.rename h) scope g' store?')
    (henv : env.Rel (fun _ => Scheme.Renames h) env') (hidem : ∀ c, h (h c) = h c) :
    g' = g ↔ ∀ c ∈ g.body.consts, c ∉ g.params → h c = c := by
  constructor
  · rintro rfl c hb hp
    have hm := hc'.mem_consts.mpr ⟨hb, hp⟩
    rw [Store.resolve_rename, Ty.mem_consts_rename] at hm
    obtain ⟨d, _, rfl⟩ := hm
    exact hidem d
  · intro hfix
    have hself : (s.resolve t).rename h = s.resolve t := Ty.rename_eq_self fun c hm =>
      hfix c (hc.mem_consts.mp hm).1 (hc.mem_consts.mp hm).2
    have hids := generalizable_rename (s := s) henv t
    have hparams : g'.params = g.params := by
      rw [hc'.chosen, hc.chosen, Store.resolve_rename, hself, hids]
      exact nameAll_congr rfl rfl _ _ _
    have hbody : g'.body = g.body := by
      rw [hc'.body, hc.body, Store.resolve_rename, hself, hids, hparams]
    obtain ⟨params, body⟩ := g
    obtain ⟨params', body'⟩ := g'
    cases hparams
    cases hbody
    rfl

/-- Closing a type succeeds after renaming too, and the schemes correspond. -/
theorem closing_renames (hs : s.Acyclic) (henv : env.Rel (fun _ => Scheme.Renames h) env') {t : Ty}
    {scope : Expr} {g : Scheme} {store? : Option Store}
    (hc : closing s env t scope = .ok (g, store?)) (scope' : Expr) :
    ∃ g' store?', closing (s.rename h) env' (t.rename h) scope' = .ok (g', store?') ∧
      Scheme.Renames h g g' := by
  have hok : ∃ r, closing (s.rename h) env' (t.rename h) scope' = .ok r := by
    rw [closing_isOk, Store.resolve_rename, Store.free_rename]
    exact (closing_isOk.mp ⟨_, hc⟩).imp_right fun hp => hp.of_rel henv
  obtain ⟨⟨g', store?'⟩, hc'⟩ := hok
  exact ⟨g', store?', hc', (closing_closes hs hc).renames (closing_closes (hs.rename h) hc') henv⟩

end

end Polytype
