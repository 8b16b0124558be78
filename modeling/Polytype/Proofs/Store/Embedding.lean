import Mathlib
import Polytype.Proofs.Store.Recursion

/-!
# Stores inside larger stores

A store *embeds* into another along a renumbering of its variables if the other binds the renumbered
variables to the renumbered types (`Store.Embeds`). The larger store may own variables besides; nothing
of the smaller one mentions them.

Whatever is computed in the smaller store is computed in the larger one from renumbered types:
`Embeds.find`, `Embeds.resolve`, `Embeds.occurs`, and `Embeds.unify`, which leaves the variables besides
as they are. A variable besides that is unbound is unified with every type, and is bound by it
(`Embeds.unify_idle`).
-/

namespace Polytype

/-! ## Renumbering -/

namespace Ty

/-- The type with other numbers for its variables. -/
def renumber (f : Int → Int) (t : Ty) : Ty := t.subst fun i => .var (f i)

variable {f f' : Int → Int} {n : Nat} {t : Ty}

@[simp] theorem renumber_absent (f : Int → Int) : Ty.absent.renumber f = .absent := rfl

@[simp] theorem renumber_var (f : Int → Int) (i : Int) : (Ty.var i).renumber f = .var (f i) := rfl

@[simp] theorem renumber_con (f : Int → Int) (name : String) (args : List Ty) :
    (Ty.con name args).renumber f = .con name (args.map (renumber f)) :=
  subst_con _ name args

theorem renumber_function (f : Int → Int) (params : List Ty) (result : Ty) :
    (Ty.function params result).renumber f =
      .function (params.map (renumber f)) (result.renumber f) :=
  subst_function _ params result

theorem renumber_array (f : Int → Int) (item : Ty) :
    (Ty.array item).renumber f = .array (item.renumber f) :=
  subst_array _ item

@[simp] theorem vars_renumber (f : Int → Int) (t : Ty) : (t.renumber f).vars = t.vars.map f := by
  rw [renumber, vars_subst]
  exact (List.map_eq_flatMap).symm

@[simp] theorem names_renumber (f : Int → Int) (t : Ty) : (t.renumber f).names = t.names :=
  names_subst_var f t

theorem renumber_closed (h : t.vars = []) (f : Int → Int) : t.renumber f = t := subst_closed h _

/-- Only the numbers of the variables that occur play a part. -/
theorem Over.renumber_congr (h : t.Over .all n) (hf : ∀ i : Int, 0 ≤ i → i < n → f' i = f i) :
    t.renumber f' = t.renumber f := by
  refine subst_congr fun i hi => ?_
  obtain ⟨h0, hlt⟩ := h.vars not_false i hi
  rw [hf i h0 hlt]

end Ty

/-- The error with other numbers for the variables. -/
def UnifyError.renumber (f : Int → Int) : UnifyError → UnifyError
  | .mismatch expected actual => .mismatch (expected.renumber f) (actual.renumber f)
  | .infinite id t => .infinite (f id) (t.renumber f)
  | .foreign id => .foreign (f id)
  | .broken fault => .broken fault

namespace Store

/-! ## Embeddings -/

/-- A store is the part of another that holds the renumbered variables. -/
structure Embeds (f : Int → Int) (s s' : Store) : Prop where
  acyclic : s.Acyclic
  owned : s.Over .all
  acyclic_into : s'.Acyclic
  owns : ∀ {i}, s.owns i = true → s'.owns (f i) = true
  injective : ∀ {i j}, s.owns i = true → s.owns j = true → f i = f j → i = j
  binding : ∀ {i}, s.owns i = true → s'.binding? (f i) = (s.binding? i).map (Ty.renumber f)

/-- A variable of the larger store that is no renumbered one. -/
def Besides (f : Int → Int) (s : Store) (j : Int) : Prop := ∀ i, s.owns i = true → f i ≠ j

/-- An unbound variable of the larger store that is no renumbered one. -/
structure Idle (f : Int → Int) (s s' : Store) (j : Int) : Prop where
  owns : s'.owns j = true
  besides : s.Besides f j
  unbound : s'.binding? j = none

theorem owns_of_over {s : Store} {t : Ty} (ht : t.Over .all s.size) {i : Int} (hi : i ∈ t.vars) :
    s.owns i = true :=
  owns_iff.mpr (ht.vars not_false i hi)

theorem owns_congr {s s' : Store} (h : s'.size = s.size) (i : Int) : s'.owns i = s.owns i := by
  rw [owns, owns, h]

namespace Embeds

variable {f : Int → Int} {s s' : Store} {t : Ty}

theorem owns_var (ht : t.Over .all s.size) {i : Int} (h : t = .var i) : s.owns i = true := by
  subst h
  exact owns_of_over ht (by simp)

/-- Chains of bindings correspond. -/
theorem find (h : s.Embeds f s') (ht : t.Over .all s.size) :
    s'.find (t.renumber f) = (s.find t).renumber f := by
  induction t using h.acyclic.induct with
  | absent => simp
  | free i hb =>
    have hb' : s'.binding? (f i) = none := by rw [h.binding (owns_var ht rfl), hb]; rfl
    rw [find_free hb, Ty.renumber_var, find_free hb']
  | bound i u hb ih =>
    have hb' : s'.binding? (f i) = some (u.renumber f) := by
      rw [h.binding (owns_var ht rfl), hb]
      rfl
    rw [find_bound h.acyclic hb, Ty.renumber_var, find_bound h.acyclic_into hb']
    exact ih (h.owned i u hb)
  | con name args _ => simp

theorem resolve (h : s.Embeds f s') (ht : t.Over .all s.size) :
    s'.resolve (t.renumber f) = (s.resolve t).renumber f := by
  induction t using h.acyclic.induct with
  | absent => simp
  | free i hb =>
    have hb' : s'.binding? (f i) = none := by rw [h.binding (owns_var ht rfl), hb]; rfl
    rw [resolve_free hb, Ty.renumber_var, resolve_free hb']
  | bound i u hb ih =>
    have hb' : s'.binding? (f i) = some (u.renumber f) := by
      rw [h.binding (owns_var ht rfl), hb]
      rfl
    rw [resolve_bound h.acyclic hb, Ty.renumber_var, resolve_bound h.acyclic_into hb']
    exact ih (h.owned i u hb)
  | con name args ih =>
    rw [resolve_con, Ty.renumber_con, Ty.renumber_con, resolve_con, List.map_map, List.map_map]
    exact congrArg _ (List.map_congr_left fun a ha => ih a ha (ht.arg ha))

/-- The variables of a resolved type are those of the store. -/
theorem owns_resolve (h : s.Embeds f s') (ht : t.Over .all s.size) {i : Int}
    (hi : i ∈ (s.resolve t).vars) : s.owns i = true :=
  owns_of_over (h.owned.resolve h.acyclic ht) hi

theorem mem_map_iff (h : s.Embeds f s') {vs : List Int} (hvs : ∀ v ∈ vs, s.owns v = true) {i : Int}
    (hi : s.owns i = true) : f i ∈ vs.map f ↔ i ∈ vs := by
  rw [List.mem_map]
  constructor
  · rintro ⟨j, hj, heq⟩
    rwa [← h.injective (hvs j hj) hi heq]
  · exact fun hm => ⟨i, hm, rfl⟩

theorem occurs (h : s.Embeds f s') (ht : t.Over .all s.size) {i : Int} (hi : s.owns i = true) :
    s'.occurs (f i) (t.renumber f) = s.occurs i t := by
  rw [Bool.eq_iff_iff, occurs_iff, occurs_iff, h.resolve ht, Ty.vars_renumber]
  exact h.mem_map_iff (fun v hv => h.owns_resolve ht hv) hi

/-- No type of the smaller store leads to a variable besides. -/
theorem occurs_besides (h : s.Embeds f s') (ht : t.Over .all s.size) {j : Int}
    (hj : s.Besides f j) : s'.occurs j (t.renumber f) = false := by
  rw [← Bool.not_eq_true, occurs_iff, h.resolve ht, Ty.vars_renumber]
  intro hm
  obtain ⟨i, hi, heq⟩ := List.mem_map.mp hm
  exact hj i (h.owns_resolve ht hi) heq

/-! ### New bindings -/

theorem renumber_ne (h : s.Embeds f s') (ht : t.Over .all s.size) {i : Int} (hi : s.owns i = true)
    (hne : t ≠ .var i) : t.renumber f ≠ .var (f i) := by
  intro heq
  cases t with
  | absent => cases heq
  | con name args => simp at heq
  | var j =>
    rw [Ty.renumber_var, Ty.var.injEq] at heq
    exact hne (congrArg Ty.var (h.injective (owns_var ht rfl) hi heq))

theorem bind (h : s.Embeds f s') (ht : t.Over .all s.size) {i : Int} (hi : s.owns i = true)
    (hb : s.binding? i = none) (hne : t ≠ .var i) (ho : s.occurs i t = false) :
    (s.bind i t).Embeds f (s'.bind (f i) (t.renumber f)) := by
  have hb' : s'.binding? (f i) = none := by rw [h.binding hi, hb]; rfl
  have ho' : s'.occurs (f i) (t.renumber f) = false := by rw [h.occurs ht hi, ho]
  refine ⟨h.acyclic.bind_of_occurs hi hb ho, h.owned.bind hi hne ht,
    h.acyclic_into.bind_of_occurs (h.owns hi) hb' ho', ?_, ?_, ?_⟩
  · intro j hj
    rw [owns_bind] at hj ⊢
    exact h.owns hj
  · intro j k hj hk
    rw [owns_bind] at hj hk
    exact h.injective hj hk
  · intro j hj
    rw [owns_bind] at hj
    by_cases hji : j = i
    · subst hji
      rw [binding?_bind_self (h.owns hi) (h.renumber_ne ht hi hne), binding?_bind_self hi hne]
      rfl
    · rw [binding?_bind_of_ne _ fun heq => hji (h.injective hj hi heq), binding?_bind_of_ne _ hji]
      exact h.binding hj

/-- Binding a variable besides changes nothing for the smaller store. -/
theorem bind_idle (h : s.Embeds f s') (ht : t.Over .all s.size) {j : Int} (hj : Idle f s s' j) :
    s.Embeds f (s'.bind j (t.renumber f)) := by
  refine ⟨h.acyclic, h.owned, ?_, ?_, h.injective, ?_⟩
  · exact h.acyclic_into.bind_of_occurs hj.owns hj.unbound (h.occurs_besides ht hj.besides)
  · intro i hi
    rw [owns_bind]
    exact h.owns hi
  · intro i hi
    rw [binding?_bind_of_ne _ (hj.besides i hi)]
    exact h.binding hi

end Embeds

/-! ### New variables -/

/-- The renumbering that goes on with new variables: those from `n` on are sent to those from `n'` on. -/
def prolong (f : Int → Int) (n n' : Nat) (i : Int) : Int := if i < n then f i else i - n + n'

theorem prolong_of_lt (f : Int → Int) {n : Nat} (n' : Nat) {i : Int} (h : i < n) :
    prolong f n n' i = f i := if_pos h

theorem prolong_of_ge (f : Int → Int) {n : Nat} (n' : Nat) {i : Int} (h : ¬ i < n) :
    prolong f n n' i = i - n + n' := if_neg h

theorem owns_freshList {k : Nat} {s : Store} {i : Int} :
    (freshList k s).2.owns i = true ↔ 0 ≤ i ∧ i < s.size + k := by
  rw [owns_iff, size_freshList, Nat.cast_add]

/-- The new variables of both stores correspond. -/
theorem Embeds.freshList {f : Int → Int} {s s' : Store} (h : s.Embeds f s') (k : Nat) :
    (freshList k s).2.Embeds (prolong f s.size s'.size) (freshList k s').2 := by
  have hold : ∀ {i : Int}, 0 ≤ i → i < s.size → 0 ≤ f i ∧ f i < s'.size := fun h0 hlt =>
    owns_iff.mp (h.owns (owns_iff.mpr ⟨h0, hlt⟩))
  refine ⟨h.acyclic.freshList k, ?_, h.acyclic_into.freshList k, ?_, ?_, ?_⟩
  · intro i t hb
    rw [binding?_freshList] at hb
    exact (h.owned i t hb).mono (by rw [size_freshList]; omega)
  · intro i hi
    rw [owns_freshList] at hi ⊢
    by_cases hlt : i < s.size
    · rw [prolong_of_lt f _ hlt]
      have := hold hi.1 hlt
      omega
    · rw [prolong_of_ge f _ hlt]
      omega
  · intro i j hi hj heq
    rw [owns_freshList] at hi hj
    by_cases hlt : i < s.size
    · have hfi := hold hi.1 hlt
      rw [prolong_of_lt f _ hlt] at heq
      by_cases hlt' : j < s.size
      · rw [prolong_of_lt f _ hlt'] at heq
        exact h.injective (owns_iff.mpr ⟨hi.1, hlt⟩) (owns_iff.mpr ⟨hj.1, hlt'⟩) heq
      · rw [prolong_of_ge f _ hlt'] at heq
        omega
    · rw [prolong_of_ge f _ hlt] at heq
      by_cases hlt' : j < s.size
      · have hfj := hold hj.1 hlt'
        rw [prolong_of_lt f _ hlt'] at heq
        omega
      · rw [prolong_of_ge f _ hlt'] at heq
        omega
  · intro i hi
    rw [owns_freshList] at hi
    rw [binding?_freshList, binding?_freshList]
    by_cases hlt : i < s.size
    · have howns : s.owns i = true := owns_iff.mpr ⟨hi.1, hlt⟩
      rw [prolong_of_lt f _ hlt, h.binding howns]
      refine Option.map_congr fun u hu => ?_
      exact ((h.owned i u hu).renumber_congr fun j _ hj => prolong_of_lt f _ hj).symm
    · have hnew : s.owns i = false := by
        rw [← Bool.not_eq_true, owns_iff]
        omega
      have hnew' : s'.owns (i - s.size + s'.size) = false := by
        rw [← Bool.not_eq_true, owns_iff]
        omega
      rw [prolong_of_ge f _ hlt, binding?_of_not_owns hnew, binding?_of_not_owns hnew']
      rfl

theorem freshList_renumber (f : Int → Int) (k : Nat) (s s' : Store) :
    (freshList k s').1 = (freshList k s).1.map (Ty.renumber (prolong f s.size s'.size)) := by
  rw [freshList_fst, freshList_fst, List.map_map]
  refine List.map_congr_left fun m _ => ?_
  have hge : ¬ (s.size + m : Int) < s.size := by omega
  rw [Function.comp_apply, Ty.renumber_var, prolong_of_ge f _ hge]
  exact congrArg Ty.var (by omega)

/-- A variable besides stays one. -/
theorem Idle.freshList {f : Int → Int} {s s' : Store} {j : Int} (h : Idle f s s' j) (k : Nat) :
    Idle (prolong f s.size s'.size) (freshList k s).2 (freshList k s').2 j := by
  obtain ⟨h0, hlt⟩ := owns_iff.mp h.owns
  refine ⟨owns_freshList.mpr (by omega), ?_, (binding?_freshList k s' j).trans h.unbound⟩
  intro i hi heq
  rw [owns_freshList] at hi
  by_cases hi' : i < s.size
  · rw [prolong_of_lt f _ hi'] at heq
    exact h.besides i (owns_iff.mpr ⟨hi.1, hi'⟩) heq
  · rw [prolong_of_ge f _ hi'] at heq
    omega

/-- The larger store alone gets new variables. -/
theorem Embeds.freshList_into {f : Int → Int} {s s' : Store} (h : s.Embeds f s') (k : Nat) :
    s.Embeds f (Store.freshList k s').2 := by
  refine ⟨h.acyclic, h.owned, h.acyclic_into.freshList k, ?_, h.injective, ?_⟩
  · intro i hi
    have := owns_iff.mp (h.owns hi)
    exact owns_freshList.mpr (by omega)
  · intro i hi
    rw [binding?_freshList, h.binding hi]

theorem Idle.freshList_into {f : Int → Int} {s s' : Store} {j : Int} (h : Idle f s s' j) (k : Nat) :
    Idle f s (Store.freshList k s').2 j := by
  have := owns_iff.mp h.owns
  exact ⟨owns_freshList.mpr (by omega), h.besides, (binding?_freshList k s' j).trans h.unbound⟩

/-- A new variable of the larger store alone is idle. -/
theorem Embeds.idle_fresh {f : Int → Int} {s s' : Store} (h : s.Embeds f s') :
    Idle f s (Store.freshList 1 s').2 s'.size := by
  refine ⟨owns_freshList.mpr (by omega), ?_, ?_⟩
  · intro i hi heq
    have := owns_iff.mp (h.owns hi)
    omega
  · rw [binding?_freshList]
    refine binding?_of_not_owns ?_
    rw [← Bool.not_eq_true, owns_iff]
    omega

/-! ## Unification -/

/-- The results of unification in two stores correspond, and the larger store `s'` has kept its variables
besides. -/
structure Unifies (f : Int → Int) (s s' : Store) (r r' : Unified) : Prop where
  embeds : r.1.Embeds f r'.1
  error : r'.2 = r.2.map (UnifyError.renumber f)
  size : r.1.size = s.size
  size_into : r'.1.size = s'.size
  kept : ∀ j, s.Besides f j → r'.1.binding? j = s'.binding? j

variable {f : Int → Int} {s s' : Store}

theorem besides_congr {s₁ : Store} (h : s₁.size = s.size) {j : Int} (hj : s.Besides f j) :
    s₁.Besides f j := fun i hi => hj i (owns_congr h i ▸ hi)

/-- An idle variable stays idle. -/
theorem Unifies.idle {r r' : Unified} (h : Unifies f s s' r r') {j : Int} (hj : Idle f s s' j) :
    Idle f r.1 r'.1 j :=
  ⟨(owns_congr h.size_into j).trans hj.owns, besides_congr h.size hj.besides,
    (h.kept j hj.besides).trans hj.unbound⟩

theorem Unifies.refl (h : s.Embeds f s') : Unifies f s s' (s, none) (s', none) :=
  ⟨h, rfl, rfl, rfl, fun _ _ => rfl⟩

theorem Unifies.mismatch (h : s.Embeds f s') {a b : Ty} (ha : a.Over .all s.size)
    (hb : b.Over .all s.size) :
    Unifies f s s' (s.mismatch a b) (s'.mismatch (a.renumber f) (b.renumber f)) := by
  refine ⟨h, ?_, rfl, rfl, fun _ _ => rfl⟩
  simp [Store.mismatch, h.resolve ha, h.resolve hb, UnifyError.renumber]

theorem Unifies.bindVar (h : s.Embeds f s') {i : Int} {t : Ty} (hi : s.owns i = true)
    (hb : s.binding? i = none) (ht : t.Over .all s.size) (hne : t ≠ .var i) :
    Unifies f s s' (s.bindVar i t) (s'.bindVar (f i) (t.renumber f)) := by
  rw [bindVar_eq hi, bindVar_eq (h.owns hi), h.occurs ht hi]
  cases ho : s.occurs i t with
  | true =>
    refine ⟨h, ?_, rfl, rfl, fun _ _ => rfl⟩
    simp [h.resolve ht, UnifyError.renumber]
  | false =>
    refine ⟨h.bind ht hi hb hne ho, rfl, size_bind s i t, size_bind s' _ _, fun j hj => ?_⟩
    exact binding?_bind_of_ne _ fun heq => hj i hi heq.symm

/-- Unification of two types corresponds in every larger store. -/
def Carries (f : Int → Int) (a b : Ty) (s : Store) : Prop :=
  ∀ s', s.Embeds f s' → a.Over .all s.size → b.Over .all s.size →
    Unifies f s s' (s.unify a b) (s'.unify (a.renumber f) (b.renumber f))

/-- Unification of two lists of types corresponds in every larger store. -/
def CarriesEach (f : Int → Int) (as bs : List Ty) (s : Store) : Prop :=
  ∀ s', s.Embeds f s' → (∀ a ∈ as, a.Over .all s.size) → (∀ b ∈ bs, b.Over .all s.size) →
    Unifies f s s' (unifyEach as bs s) (unifyEach (as.map (Ty.renumber f)) (bs.map (Ty.renumber f)) s')

theorem sameShape_renumber (n m : String) (as bs : List Ty) :
    Ty.sameShape n (as.map (Ty.renumber f)) m (bs.map (Ty.renumber f)) = Ty.sameShape n as m bs := by
  simp [Ty.sameShape]

/-- Where two chains end. -/
theorem meet_carries (h : s.Embeds f s') {a b : Ty} (ha : a.Over .all s.size) (hb : b.Over .all s.size)
    (hfa : ∀ i, a = .var i → s.binding? i = none) (hfb : ∀ j, b = .var j → s.binding? j = none)
    (hargs : ∀ n as m bs, a = .con n as → b = .con m bs → Ty.sameShape n as m bs = true →
      CarriesEach f as bs s) :
    Unifies f s s' (s.meet unifyCons a b) (s'.meet unifyCons (a.renumber f) (b.renumber f)) := by
  cases a with
  | absent => exact .mismatch h ha hb
  | var i =>
    have hi := Embeds.owns_var ha rfl
    cases b with
    | absent =>
      have hbind := Unifies.bindVar h hi (hfa i rfl) hb (by simp)
      simpa [meet, hi, h.owns hi] using hbind
    | var j =>
      have hj := Embeds.owns_var hb rfl
      by_cases hij : i = j
      · subst hij
        simpa [meet, hi, h.owns hi] using Unifies.refl h
      · have hne : f i ≠ f j := fun heq => hij (h.injective hi hj heq)
        have hbind := Unifies.bindVar h hi (hfa i rfl) hb (by simpa using Ne.symm hij)
        simpa [meet, hi, hj, h.owns hi, h.owns hj, hij, hne] using hbind
    | con m bs =>
      have hbind := Unifies.bindVar h hi (hfa i rfl) hb (by simp)
      simpa [meet, hi, h.owns hi] using hbind
  | con n as =>
    cases b with
    | absent => simpa [meet] using Unifies.mismatch h ha hb
    | var j =>
      have hj := Embeds.owns_var hb rfl
      have hbind := Unifies.bindVar h hj (hfb j rfl) ha (by simp)
      simpa [meet, hj, h.owns hj] using hbind
    | con m bs =>
      have hmis := Unifies.mismatch h ha hb
      simp only [Ty.renumber_con] at hmis
      simp only [Ty.renumber_con, meet, unifyCons, sameShape_renumber]
      cases hsh : Ty.sameShape n as m bs with
      | false => simpa using hmis
      | true =>
        simpa using hargs n as m bs rfl rfl hsh s' h (fun a hm => ha.arg hm) fun b hm => hb.arg hm

theorem carries_pair (a b : Ty) (s : Store) (hs : s.Acyclic)
    (hargs : ∀ n as m bs, s.find a = .con n as → s.find b = .con m bs →
      Ty.sameShape n as m bs = true → CarriesEach f as bs s) : Carries f a b s := by
  intro s' h ha hb
  rw [hs.unify_eq, h.acyclic_into.unify_eq, h.find ha, h.find hb]
  exact meet_carries h (h.owned.find hs ha) (h.owned.find hs hb) (fun i hi => binding?_of_find hs hi)
    (fun j hj => binding?_of_find hs hj) hargs

theorem carriesEach_nil (as bs : List Ty) (s : Store) (hnil : as = [] ∨ bs = []) :
    CarriesEach f as bs s := by
  intro s' h _ _
  have hbroken : Unifies f s s' (s, some (.broken .outOfRange)) (s', some (.broken .outOfRange)) :=
    ⟨h, rfl, rfl, rfl, fun _ _ => rfl⟩
  rcases hnil with rfl | rfl
  · simpa [unifyEach] using Unifies.refl h
  · cases as with
    | nil => simpa [unifyEach] using Unifies.refl h
    | cons a as => simpa [unifyEach] using hbroken

theorem carriesEach_cons (a : Ty) (as : List Ty) (b : Ty) (bs : List Ty) (s : Store)
    (_ : s.Acyclic) (hab : Carries f a b s)
    (hrest : ∀ s₁, s.unify a b = (s₁, none) → CarriesEach f as bs s₁) :
    CarriesEach f (a :: as) (b :: bs) s := by
  intro s' h ha hb
  rw [List.forall_mem_cons] at ha hb
  have hone := hab s' h ha.1 hb.1
  rw [List.map_cons, List.map_cons]
  obtain ⟨⟨s₁, e⟩, hu⟩ : ∃ r, s.unify a b = r := ⟨_, rfl⟩
  obtain ⟨⟨s₁', e'⟩, hu'⟩ : ∃ r, s'.unify (a.renumber f) (b.renumber f) = r := ⟨_, rfl⟩
  rw [hu, hu'] at hone
  cases e with
  | some e =>
    obtain rfl : e' = some (e.renumber f) := hone.error
    rw [unifyEach_stop hu, unifyEach_stop hu']
    exact hone
  | none =>
    obtain rfl : e' = none := hone.error
    rw [unifyEach_next hu, unifyEach_next hu']
    have hsize : s₁.size = s.size := hone.size
    have hnext := hrest s₁ hu s₁' hone.embeds (fun a' hm => by rw [hsize]; exact ha.2 a' hm)
      fun b' hm => by rw [hsize]; exact hb.2 b' hm
    refine ⟨hnext.embeds, hnext.error, hnext.size.trans hsize, hnext.size_into.trans hone.size_into, ?_⟩
    exact fun j hj => (hnext.kept j (besides_congr hsize hj)).trans (hone.kept j hj)

/-- Types of the smaller store are unified in the larger one as in the smaller one. -/
theorem Embeds.unify (h : s.Embeds f s') {a b : Ty} (ha : a.Over .all s.size) (hb : b.Over .all s.size) :
    Unifies f s s' (s.unify a b) (s'.unify (a.renumber f) (b.renumber f)) :=
  h.acyclic.unify_induct carries_pair carriesEach_nil carriesEach_cons a b s' h ha hb

/-- A variable besides is bound by the type it is unified with. -/
theorem Embeds.unify_idle (h : s.Embeds f s') {t : Ty} (ht : t.Over .all s.size) {j : Int}
    (hj : Idle f s s' j) :
    s'.unify (.var j) (t.renumber f) = (s'.bind j ((s.find t).renumber f), none) := by
  have hfind := h.owned.find h.acyclic ht
  have ho := h.occurs_besides hfind hj.besides
  rw [h.acyclic_into.unify_eq, find_free hj.unbound, h.find ht]
  cases hend : s.find t with
  | absent =>
    rw [hend] at ho
    simpa [meet, hj.owns, bindVar_eq hj.owns] using ho
  | var i =>
    rw [hend] at ho hfind
    have hi := Embeds.owns_var hfind rfl
    have hne : j ≠ f i := fun heq => hj.besides i hi heq.symm
    rw [Ty.renumber_var] at ho ⊢
    simp [meet, hj.owns, h.owns hi, hne, bindVar_eq hj.owns, ho]
  | con m bs =>
    rw [hend, Ty.renumber_con] at ho
    simp [meet, hj.owns, bindVar_eq hj.owns, ho]

end Store

end Polytype
