import Mathlib
import Polytype.Store.VarSet

/-!
# Sets of variables in the order of arrival

Adding variables one after another keeps each at its first place (`VarSet.pairwise_addAll_filter`), and
commutes with leaving some out and with a change of their numbers.
-/

namespace Polytype

namespace VarSet

theorem ids_add (vs : VarSet) (v : Int) :
    (vs.add v).ids = if v ∈ vs.ids then vs.ids else vs.ids ++ [v] := by
  rw [add]
  split <;> simp [*]

theorem addAll_cons (vs : VarSet) (v : Int) (l : List Int) :
    vs.addAll (v :: l) = (vs.add v).addAll l := rfl

theorem addAll_filter (p : Int → Bool) {l : List Int} {vs ws : VarSet}
    (h : ws.ids = vs.ids.filter p) : (ws.addAll (l.filter p)).ids = (vs.addAll l).ids.filter p := by
  induction l generalizing vs ws with
  | nil => exact h
  | cons v l ih =>
    rw [addAll_cons, List.filter_cons]
    by_cases hv : p v = true
    · rw [if_pos hv, addAll_cons]
      refine ih ?_
      rw [ids_add, ids_add, h]
      by_cases hm : v ∈ vs.ids
      · rw [if_pos hm, if_pos (List.mem_filter.mpr ⟨hm, hv⟩)]
      · rw [if_neg hm, if_neg fun hf => hm (List.mem_filter.mp hf).1, List.filter_append]
        simp [hv]
    · rw [if_neg hv]
      refine ih ?_
      rw [ids_add, h]
      split
      · rfl
      · simp [hv]

theorem addAll_map (f : Int → Int) {l : List Int} {vs ws : VarSet} (h : ws.ids = vs.ids.map f)
    (hf : ∀ v ∈ vs.ids ++ l, ∀ w ∈ vs.ids ++ l, f v = f w → v = w) :
    (ws.addAll (l.map f)).ids = (vs.addAll l).ids.map f := by
  induction l generalizing vs ws with
  | nil => exact h
  | cons v l ih =>
    rw [List.map_cons, addAll_cons, addAll_cons]
    have hmem : f v ∈ ws.ids ↔ v ∈ vs.ids := by
      rw [h, List.mem_map]
      constructor
      · rintro ⟨w, hw, hwv⟩
        rw [← hf w (by simp [hw]) v (by simp) hwv]
        exact hw
      · exact fun hv => ⟨v, hv, rfl⟩
    refine ih ?_ ?_
    · rw [ids_add, ids_add, h]
      by_cases hv : v ∈ vs.ids
      · rw [if_pos (h ▸ hmem.mpr hv), if_pos hv]
      · rw [if_neg (h ▸ mt hmem.mp hv), if_neg hv]
        simp
    · intro a ha b hb
      have hsub : ∀ c ∈ (vs.add v).ids ++ l, c ∈ vs.ids ++ v :: l := by
        intro c hc
        rw [ids_add] at hc
        split at hc
        · simp only [List.mem_append, List.mem_cons] at hc ⊢
          tauto
        · simp only [List.mem_append, List.mem_cons] at hc ⊢
          tauto
      exact hf a (hsub a ha) b (hsub b hb)

/-- Variables that are added are in the order in which they first stand in the whole list; `before` is
the part of it that has been added. -/
theorem pairwise_addAll_filter (p : Int → Bool) {l before : List Int} {vs : VarSet}
    (hvs : ∀ v, v ∈ vs.ids ↔ v ∈ before ∧ p v)
    (h : vs.ids.Pairwise fun v w => (before ++ l).idxOf v < (before ++ l).idxOf w) :
    (vs.addAll (l.filter p)).ids.Pairwise
      fun v w => (before ++ l).idxOf v < (before ++ l).idxOf w := by
  induction l generalizing before vs with
  | nil => exact h
  | cons a l ih =>
    rw [List.append_cons] at h ⊢
    by_cases ha : p a = true
    · rw [List.filter_cons_of_pos ha, addAll_cons]
      have hbefore : a ∈ vs.ids ↔ a ∈ before := by simp [hvs, ha]
      by_cases hmem : a ∈ vs.ids
      · have hsame : (vs.add a).ids = vs.ids := by rw [ids_add, if_pos hmem]
        apply ih
        · intro v
          rw [hsame, hvs, List.mem_append, List.mem_singleton]
          have := hbefore.mp hmem
          grind
        · rwa [hsame]
      · have hlast : (vs.add a).ids = vs.ids ++ [a] := by rw [ids_add, if_neg hmem]
        apply ih
        · intro v
          rw [hlast, List.mem_append, List.mem_append, List.mem_singleton, hvs]
          grind
        · -- what was added before stands in the part before `a`, and `a` does not
          rw [hlast, List.pairwise_append]
          refine ⟨h, List.pairwise_singleton _ _, ?_⟩
          intro v hv w hw
          have hvb : v ∈ before := ((hvs v).mp hv).1
          have hlt := List.idxOf_lt_length_of_mem hvb
          rw [List.mem_singleton.mp hw, ← List.append_cons, List.idxOf_append_of_mem hvb,
            List.idxOf_append_of_notMem (mt hbefore.mpr hmem)]
          omega
    · rw [List.filter_cons_of_neg ha]
      apply ih
      · intro v
        rw [hvs, List.mem_append, List.mem_singleton]
        grind
      · exact h

end VarSet

end Polytype
