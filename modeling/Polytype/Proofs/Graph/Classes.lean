import Mathlib
import Polytype.Proofs.Expr.FreeNames
import Polytype.Proofs.Graph.Search

/-!
# Components are the classes of mutual reachability

An edge leads to the same component or to one before, so that two vertices of different components cannot
reach each other both ways. The graph of references between the functions of a group is one whose search
ends, so that the components of a group list places of its functions, each after those that its functions
refer to (`Binding.components_classes`).
-/

namespace Polytype

namespace Graph

theorem within_of_mem {ls : List (List Nat)} {n : Nat} (h : ∀ l ∈ ls, ∀ w ∈ l, w < n) :
    Graph.Within ls.toArray n := by
  intro v w hw
  rw [next, Array.getD_eq_getD_getElem?, List.getElem?_toArray] at hw
  cases hv : ls[v]? with
  | none => simp [hv] at hw
  | some l =>
    rw [hv, Option.getD_some] at hw
    exact h l (List.mem_of_getElem? hv) w hw

namespace Classified

variable {g : Graph} {classes : List (List Nat)} (h : g.Classified classes)

include h

/-- A path leads to the same class or to one before. -/
theorem reaches_before {before after : List (List Nat)} {c : List Nat}
    (hsplit : classes = before ++ c :: after) {v w : Nat} (hv : v ∈ c) (hpath : g.Reaches v w) :
    ∃ d ∈ before ++ [c], w ∈ d := by
  induction hpath with
  | refl => exact ⟨c, by simp, hv⟩
  | tail _ hstep ih =>
    obtain ⟨d, hd, hmid⟩ := ih
    obtain ⟨l, m, hlm⟩ := List.append_of_mem hd
    have hsplit' : classes = l ++ d :: (m ++ after) := by
      rw [hsplit, List.append_cons, hlm, List.append_assoc]
      rfl
    obtain ⟨e, he, hw⟩ := h.before l d (m ++ after) hsplit' _ hmid _ hstep
    refine ⟨e, ?_, hw⟩
    rw [hlm, List.append_cons]
    exact List.mem_append_left _ he

/-- Vertices share a class if they reach each other, and only then. -/
theorem share_iff {v w : Nat} (hv : v ∈ classes.flatten) :
    (∃ c ∈ classes, v ∈ c ∧ w ∈ c) ↔ g.Reaches v w ∧ g.Reaches w v := by
  constructor
  · rintro ⟨c, hc, hvc, hwc⟩
    exact ⟨h.strong c hc v hvc w hwc, h.strong c hc w hwc v hvc⟩
  · rintro ⟨hvw, hwv⟩
    obtain ⟨c, hc, hvc⟩ := List.mem_flatten.mp hv
    obtain ⟨before, after, hsplit⟩ := List.append_of_mem hc
    obtain ⟨d, hd, hwd⟩ := h.reaches_before hsplit hvc hvw
    refine ⟨c, hc, hvc, ?_⟩
    rcases List.mem_append.mp hd with hd | hd
    · -- from an earlier class nothing leads back
      obtain ⟨l, m, rfl⟩ := List.append_of_mem hd
      have hsplit' : classes = l ++ d :: (m ++ c :: after) := by rw [hsplit]; simp
      obtain ⟨e, he, hve⟩ := h.reaches_before hsplit' hwd hwv
      have hapart := (List.nodup_flatten.mp h.nodup).2
      rw [hsplit', List.append_cons, List.pairwise_append] at hapart
      exact absurd hvc (hapart.2.2 e he c (by simp) hve)
    · rwa [List.mem_singleton.mp hd] at hwd

end Classified

theorem exists_components {g : Graph} (hg : g.Within g.size) :
    ∃ classes, g.components = .ok classes ∧ g.Classified classes ∧
      ∀ v, v ∈ classes.flatten ↔ v < g.size :=
  exists_classified hg le_rfl

end Graph

namespace Binding

/-! ## References -/

theorem places_concat (bs : List Binding) (b : Binding) (x : String) :
    places (bs ++ [b]) x = if x = b.name then some bs.length else places bs x := by
  rw [places, List.zipIdx_append, List.foldl_append]
  simp [places]

/-- The place of a name is that of the last function of this name. -/
theorem places_eq_some_iff {bs : List Binding} {x : String} {j : Nat} :
    places bs x = some j ↔
      ∃ c, bs[j]? = some c ∧ c.name = x ∧ ∀ k d, j < k → bs[k]? = some d → d.name ≠ x := by
  induction bs using List.reverseRecOn with
  | nil => simp [places]
  | append_singleton bs b ih =>
    rw [places_concat]
    by_cases hx : x = b.name
    · rw [if_pos hx, Option.some_inj]
      constructor
      · rintro rfl
        refine ⟨b, by simp, hx.symm, fun k d hk hd => ?_⟩
        rw [List.getElem?_eq_none (by simp; omega)] at hd
        cases hd
      · rintro ⟨c, hc, _, hlast⟩
        have hj := (List.getElem?_eq_some_iff.mp hc).1
        by_contra hne
        rw [List.length_append, List.length_singleton] at hj
        exact hlast bs.length b (by omega) (by simp) hx.symm
    · rw [if_neg hx, ih]
      constructor
      · rintro ⟨c, hc, hname, hlast⟩
        have hj := (List.getElem?_eq_some_iff.mp hc).1
        refine ⟨c, by rwa [List.getElem?_append_left hj], hname, fun k d hk hd => ?_⟩
        by_cases hkb : k < bs.length
        · rw [List.getElem?_append_left hkb] at hd
          exact hlast k d hk hd
        · have hmem := List.mem_of_getElem? hd
          rw [List.getElem?_append_right (by omega), List.getElem?_singleton] at hd
          split at hd
          · cases hd
            exact Ne.symm hx
          · cases hd
      · rintro ⟨c, hc, hname, hlast⟩
        have hj : j < bs.length := by
          have hlt := (List.getElem?_eq_some_iff.mp hc).1
          rw [List.length_append, List.length_singleton] at hlt
          by_contra hge
          obtain rfl : j = bs.length := by omega
          rw [List.getElem?_concat_length, Option.some_inj] at hc
          exact hx (hc ▸ hname.symm)
        rw [List.getElem?_append_left hj] at hc
        refine ⟨c, hc, hname, fun k d hk hd => hlast k d hk ?_⟩
        rwa [List.getElem?_append_left (List.getElem?_eq_some_iff.mp hd).1]

theorem size_graph (bs : List Binding) : (graph bs).size = bs.length := by
  rw [graph, List.size_toArray, List.length_map]

theorem mem_references {bs : List Binding} {b : Binding} {j : Nat} :
    j ∈ references bs b ↔ ∃ x ∈ Expr.freeBinding b, places bs x = some j := by
  rw [references, List.mem_mergeSort, List.mem_filterMap]
  simp only [mem_function]

theorem graph_within (bs : List Binding) : (graph bs).Within (graph bs).size := by
  rw [size_graph]
  refine Graph.within_of_mem fun l hl w hw => ?_
  obtain ⟨b, _, rfl⟩ := List.mem_map.mp hl
  obtain ⟨x, _, hx⟩ := mem_references.mp hw
  obtain ⟨c, hc, _⟩ := places_eq_some_iff.mp hx
  exact (List.getElem?_eq_some_iff.mp hc).1

/-- A function refers to another by a name that is free in it and that no later function has. -/
def Refers (bs : List Binding) (i j : Nat) : Prop :=
  ∃ b c, bs[i]? = some b ∧ bs[j]? = some c ∧ c.name ∈ Expr.freeBinding b ∧
    ∀ k d, j < k → bs[k]? = some d → d.name ≠ c.name

/-- The edges of the graph are the references. -/
theorem mem_next_graph_iff {bs : List Binding} {i j : Nat} :
    j ∈ (graph bs).next i ↔ Refers bs i j := by
  rw [Graph.next, graph, Array.getD_eq_getD_getElem?, List.getElem?_toArray, List.getElem?_map]
  cases hb : bs[i]? with
  | none =>
    refine iff_of_false (by simp) ?_
    rintro ⟨b, c, hi, _⟩
    rw [hb] at hi
    cases hi
  | some b =>
    rw [Option.map_some, Option.getD_some, mem_references]
    constructor
    · rintro ⟨x, hx, hj⟩
      obtain ⟨c, hc, rfl, hlast⟩ := places_eq_some_iff.mp hj
      exact ⟨b, c, hb, hc, hx, hlast⟩
    · rintro ⟨b', c, hi, hc, hfree, hlast⟩
      rw [hb] at hi
      cases hi
      exact ⟨c.name, hfree, places_eq_some_iff.mpr ⟨c, hc, rfl, hlast⟩⟩

/-- Where no name is given twice, a function has an edge to the functions whose names are free in it. -/
theorem mem_next_graph {bs : List Binding} (hdup : (bs.map (·.name)).Nodup) {i j : Nat}
    {b c : Binding} (hb : bs[i]? = some b) (hc : bs[j]? = some c)
    (hfree : c.name ∈ Expr.freeBinding b) : j ∈ (graph bs).next i := by
  refine mem_next_graph_iff.mpr ⟨b, c, hb, hc, hfree, fun k d hk hd heq => ?_⟩
  have hplace : j = k := by
    refine (List.getElem?_inj (l := bs.map (·.name)) ?_ hdup).mp ?_
    · rw [List.length_map]
      exact (List.getElem?_eq_some_iff.mp hc).1
    · rw [List.getElem?_map, List.getElem?_map, hc, hd, Option.map_some, Option.map_some, heq]
  omega

/-! ## The components of a group -/

/-- The components that the search finds; it always ends. -/
def classes (bs : List Binding) : List (List Nat) := (components bs).toOption.getD []

theorem classes_spec (bs : List Binding) :
    components bs = .ok (classes bs) ∧ (graph bs).Classified (classes bs) ∧
      ∀ i, i ∈ (classes bs).flatten ↔ i < bs.length := by
  obtain ⟨cs, hcs, hclassified, hmem⟩ := Graph.exists_components (graph_within bs)
  have heq : classes bs = cs := by
    rw [classes, components, hcs]
    rfl
  rw [heq, ← size_graph]
  exact ⟨hcs, hclassified, hmem⟩

/-- The components of a group hold places of its functions. -/
theorem classes_lt {bs : List Binding} : ∀ c ∈ classes bs, ∀ i ∈ c, i < bs.length :=
  fun c hc i hi => ((classes_spec bs).2.2 i).mp (List.mem_flatten.mpr ⟨c, hc, hi⟩)

/-- Every function of a group is in a component. -/
theorem exists_class {bs : List Binding} {i : Nat} (hi : i < bs.length) : ∃ c ∈ classes bs, i ∈ c :=
  List.mem_flatten.mp (((classes_spec bs).2.2 i).mpr hi)

/-- A function leads to another by references. -/
abbrev Leads (bs : List Binding) : Nat → Nat → Prop := Relation.ReflTransGen (Refers bs)

theorem reaches_graph (bs : List Binding) : (graph bs).Reaches = Leads bs := by
  have hedge : (fun i j => j ∈ (graph bs).next i) = Refers bs := by
    funext i j
    exact propext mem_next_graph_iff
  rw [Graph.Reaches, hedge]

/-- The functions of a group fall into classes that lead to each other by references, and each class stands
after those it refers to. The search for them ends on every graph, with the same classes however deep it may
go. -/
theorem components_classes (bs : List Binding) :
    ∃ cs, components bs = .ok cs ∧
    cs.flatten.Perm (List.range bs.length) ∧
    (∀ c ∈ cs, c ≠ [] ∧ c.Pairwise (· < ·)) ∧
    (∀ i j, i < bs.length → j < bs.length →
      ((∃ c ∈ cs, i ∈ c ∧ j ∈ c) ↔ Leads bs i j ∧ Leads bs j i)) ∧
    (∀ before c after, cs = before ++ c :: after → ∀ i ∈ c, ∀ j, Refers bs i j →
      j ∉ c → ∃ d ∈ before, j ∈ d) ∧
    (∀ g : Graph, g.Within g.size →
      ∃ ds, ∀ depth, g.size ≤ depth → g.componentsWithin depth = .ok ds) := by
  obtain ⟨hcs, hclassified, hmem⟩ := classes_spec bs
  refine ⟨classes bs, hcs, ?_, hclassified.ascending, fun i j hi _ => ?_, ?_, fun g hg => ?_⟩
  · refine (List.perm_ext_iff_of_nodup hclassified.nodup List.nodup_range).mpr fun i => ?_
    rw [hmem, List.mem_range]
  · rw [← reaches_graph]
    exact hclassified.share_iff ((hmem i).mpr hi)
  · intro before c after hsplit i hi j hij hj
    obtain ⟨d, hd, hjd⟩ := hclassified.before before c after hsplit i hi j (mem_next_graph_iff.mpr hij)
    rcases List.mem_append.mp hd with hd | hd
    · exact ⟨d, hd, hjd⟩
    · rw [List.mem_singleton.mp hd] at hjd
      exact absurd hjd hj
  · obtain ⟨ds, hds, _⟩ := Graph.exists_components hg
    exact ⟨ds, fun depth hdepth => Graph.componentsWithin_of_le hdepth hds⟩

/-- Two functions that call each other, and one that calls the first and itself. -/
def parity : List Binding :=
  let caller := fun name callees =>
    Binding.fn name none [⟨"n", .absent⟩] .absent
      (.block (callees.map fun f => .call (.var f none .absent) [.var "n" none .absent] .absent) .absent)
      .absent
  [caller "even" ["odd"], caller "odd" ["even"], caller "halve" ["even", "halve"]]

theorem graph_parity : graph parity = #[[1], [0], [0, 2]] := by cbv

/-- The two stand in one component, and the third in a later one. -/
theorem components_classes_parity :
    ∃ cs, components parity = .ok cs ∧ (∃ c ∈ cs, 0 ∈ c ∧ 1 ∈ c) ∧
    (∀ before c after, cs = before ++ c :: after → 2 ∈ c → ∃ d ∈ before, 0 ∈ d) := by
  obtain ⟨cs, hcs, _, _, hshare, horder, _⟩ := components_classes parity
  have hrefers : ∀ {i j}, Refers parity i j ↔ j ∈ Graph.next #[[1], [0], [0, 2]] i := by
    intro i j
    rw [← graph_parity, mem_next_graph_iff]
  refine ⟨cs, hcs, (hshare 0 1 (by decide) (by decide)).mpr ⟨?_, ?_⟩, ?_⟩
  · exact .single (hrefers.mpr (by decide))
  · exact .single (hrefers.mpr (by decide))
  · intro before c after hsplit hc
    refine horder before c after hsplit 2 hc 0 (hrefers.mpr (by decide)) fun h0 => ?_
    -- the first two functions lead only to each other
    have hstay : ∀ i, Leads parity 0 i → i < 2 := by
      intro i hi
      induction hi with
      | refl => decide
      | @tail j k _ hjk ih =>
        rw [hrefers] at hjk
        interval_cases j <;> simp [Graph.next] at hjk <;> omega
    have hlead := (hshare 0 2 (by decide) (by decide)).mp ⟨c, by simp [hsplit], h0, hc⟩
    exact absurd (hstay 2 hlead.1) (by decide)

end Binding

end Polytype
