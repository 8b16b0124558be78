import Polytype.Proofs.Infer.Generalization
import Polytype.Proofs.Infer.Steps

/-!
# Opening what was closed

A type is closed over the variables that its environment does not reach, by naming them, and opened
again by new variables for the names. Names are constructors, so this gives back the type with just
those variables renewed only because the names are no constructors of the type: `closeOver_reopens`
puts together which variables are named, what their names keep away from, and what every later instance
is.
-/

namespace Polytype

/-! ## New variables -/

theorem map_idxOf {α : Type} [DecidableEq α] {ids : List α} (h : ids.Nodup) :
    ids.map ids.idxOf = List.range ids.length := by
  apply List.ext_getElem
  · simp
  · intro k hk _
    simp only [List.getElem_map, List.getElem_range]
    exact h.idxOf_getElem k (by simpa using hk)

/-- The first of some variables becomes the first variable that a store does not have yet, the second
one the variable after it, and so on; others stay. -/
def renewed (s : Store) (ids : List Int) (v : Int) : Ty :=
  if v ∈ ids then .var (s.size + ids.idxOf v) else .var v

theorem assign_freshList {ids : List Int} (h : ids.Nodup) (s : Store) :
    assign ids (s.freshList ids.length).1 .var = renewed s ids := by
  have hfresh : (Store.freshList ids.length s).1 = ids.map fun v => .var (s.size + ids.idxOf v) := by
    rw [Store.freshList_fst, ← map_idxOf h, List.map_map]
    rfl
  funext v
  rw [hfresh, renewed]
  split_ifs with hv
  · exact assign_map hv
  · exact assign_of_not_mem hv

/-! ## Variables of the environment -/

/-- A type of an environment has a variable that leads to another. -/
def Env.Reaches (s : Store) (env : Env) (v : Int) : Prop :=
  ∃ x g, env.lookup? x = some (some g) ∧ ∃ u ∈ g.body.vars, s.Reaches u v

theorem Store.mem_generalizable_iff {s : Store} (h : s.Acyclic) (ho : s.Over .all) {env : Env} {t : Ty}
    (ht : t.Over .all s.size) {v : Int} :
    v ∈ s.generalizable env t ↔
      v ∈ (s.resolve t).vars ∧ s.binding? v = none ∧ ¬ env.Reaches s v := by
  have howned : v ∈ (s.resolve t).vars → s.owns v = true := fun hv =>
    owns_iff.mpr ((ho.resolve h ht).vars (fun hs => hs) v hv)
  have hreached : s.binding? v = none → (v ∈ env.varsUnder s.resolve ↔ env.Reaches s v) := by
    intro hb
    simp only [Env.mem_varsUnder, Env.Reaches, mem_vars_resolve h, hb, true_and]
  rw [mem_generalizable]
  constructor
  · rintro ⟨⟨hv, _⟩, hnot⟩
    have hb := binding?_of_mem_resolve h hv
    exact ⟨hv, hb, mt (hreached hb).mpr hnot⟩
  · rintro ⟨hv, hb, hnot⟩
    exact ⟨⟨hv, howned hv⟩, mt (hreached hb).mp hnot⟩

/-! ## Closing and opening -/

/-- A scheme has names for some variables of a resolved type, and its instances have new variables in
their places. -/
structure Reopens (s : Store) (env : Env) (t : Ty) (scope : Expr) (ids : List Int) (g : Scheme) :
    Prop where
  /-- The variables are the unbound ones that the environment does not reach. -/
  chosen : ∀ v, v ∈ ids ↔ v ∈ (s.resolve t).vars ∧ s.binding? v = none ∧ ¬ env.Reaches s v
  /-- They come in the order of their first occurrences. -/
  order : ids.Pairwise fun v w => (s.resolve t).vars.idxOf v < (s.resolve t).vars.idxOf w
  /-- Each has a name of its own. -/
  length : g.params.length = ids.length
  nodup : g.params.Nodup
  body : g.body = (s.resolve t).subst (named ids g.params)
  /-- No constructor of the type is called like that. -/
  new : ∀ p ∈ g.params, p ∉ (s.resolve t).names
  /-- No group inside the scope has such a parameter. -/
  apart : scope.Every fun n => ∀ own ∈ n.generics, ∀ p ∈ g.params, p ∉ own.params
  /-- An instance in any store renews the variables and leaves all else as it is. -/
  instantiate : ∀ s' : Store, g.instantiate s' =
    (((s.resolve t).subst (renewed s' ids), (List.range ids.length).map fun (k : Nat) => .var (s'.size + k)),
      (s'.freshList ids.length).2)

/-- An instance of the closed type is the type with new variables for those that were named. -/
theorem Closes.instantiate_eq {s : Store} {env : Env} {t : Ty} {scope : Expr} {g : Scheme}
    {store? : Option Store} (h : Closes s env t scope g store?) (s' : Store) :
    g.instantiate s' =
      (((s.resolve t).subst (renewed s' (s.generalizable env t)),
        (List.range (s.generalizable env t).length).map fun (k : Nat) => .var (s'.size + k)),
        (s'.freshList (s.generalizable env t).length).2) := by
  have hnodup : (s.generalizable env t).Nodup := nodup_firstsNotIn _ _
  have hlength : (Store.freshList g.params.length s').1.length = g.params.length := by
    simp [Store.freshList_fst]
  have happly := h.applyUnder hlength .var
  rw [Scheme.applyUnder_eq_apply fun _ _ => rfl, h.length, assign_freshList hnodup] at happly
  rw [Scheme.instantiate_eq, h.length, happly, Store.freshList_fst]

/-- Closing a type succeeds, with the same result for every supply of names, and to instantiate the result
is to renew the variables that were closed over. -/
theorem closeOver_reopens {s : Store} (h : s.Acyclic) (ho : s.Over .all) {env : Env}
    (henv : env.Present) {t : Ty} (ht : t.Over .all s.size) (scope : Expr) :
    ∃ g store? ids, (∀ names, ∃ names', closeOver s names env t scope = .ok (g, store?, names')) ∧
      Reopens s env t scope ids g := by
  obtain ⟨⟨g, store?⟩, hclose⟩ := closing_isOk.mpr (.inr henv)
  have hcloses := closing_closes h hclose
  have howned : ∀ v ∈ (s.resolve t).vars, s.owns v = true := fun v hv =>
    Store.owns_iff.mpr ((ho.resolve h ht).vars (fun hs => hs) v hv)
  have horder := pairwise_firstsNotIn (s.resolve t).vars (env.varsUnder s.resolve)
  rw [← Store.generalizable_of_owns howned] at horder
  refine ⟨g, store?, s.generalizable env t, closing_eq_ok.mp hclose, ?_⟩
  exact {
    chosen := fun v => Store.mem_generalizable_iff h ho ht
    order := horder
    length := hcloses.length
    nodup := hcloses.nodup
    body := hcloses.body
    new := hcloses.new
    apart := fun n hn own hown p hp hmem => hcloses.apart p hp (mem_groupParams hn hown hmem)
    instantiate := fun s' => hcloses.instantiate_eq s' }

/-- One of four variables is bound and one belongs to the environment; the type has a constructor `A`
and the scope a parameter `B`. -/
theorem closeOver_reopens_pair :
    let s := (Store.freshList 4 .empty).2.bind 1 (.array (.var 0))
    let env := Env.empty.extend "x" (some (.mono (.var 2)))
    let t : Ty := .con "Pair" [.var 3, .con "Pair" [.var 1, .con "A" [.var 2]]]
    let scope : Expr :=
      .group [.fn "f" (some ⟨["B"], .con "B" []⟩) [] .absent (.int 1 .absent) .absent]
        (.var "f" none .absent) .absent
    s.Acyclic ∧ s.Over .all ∧ env.Present ∧ t.Over .all s.size ∧
      ∃ g store? ids, (∀ names, ∃ names', closeOver s names env t scope = .ok (g, store?, names')) ∧
        Reopens s env t scope ids g := by
  intro s env t scope
  have hfree : ∀ i, (Store.freshList 4 .empty).2.binding? i = none := by
    simp [Store.binding?_freshList]
  have hacyclic : s.Acyclic := by
    apply (Store.acyclic_empty.freshList 4).bind (by decide) (hfree 1)
    intro j hj hreach
    rw [← Store.eq_of_reaches (hfree j) hreach] at hj
    simp [Ty.array] at hj
  have hover : s.Over .all := by
    refine Store.Over.bind ?_ (by decide) (by decide) (.array (.var (by decide) (by decide)))
    intro i u hu
    rw [hfree] at hu
    cases hu
  have hpresent : env.Present := Env.Present.extend (by simp [Env.Present]) "x" _
  have ht : t.Over .all s.size :=
    ⟨fun hg => absurd trivial hg, fun _ => by decide, fun _ _ => trivial⟩
  exact ⟨hacyclic, hover, hpresent, ht, closeOver_reopens hacyclic hover hpresent ht scope⟩

end Polytype
