import Polytype.Proofs.Infer.Invariant

/-!
# The first contradiction

Constraints are solved one after the other in a store that each of them changes, and the expression of
the first one that fails is blamed. What is blamed depends on the equations alone: it belongs to the
first constraint that has no solution in common with the bindings of the store and the constraints
before it (`solveList_blames`), and solving succeeds exactly if all have a common solution.

The bindings of the store have to be whole types over its own variables. Unification looks at a missing
type or at the variable of another store only where both sides come down to it, and then refuses it,
even where the equation holds (`solve_refuses_bindings`).
-/

namespace Polytype.Queue

variable {s : Store} {cs ds : List Constraint} {e : UnifyError} {x : Expr}

/-- An assignment of types satisfies the bindings of a store and all constraints. -/
def Solution (s : Store) (cs : List Constraint) (σ : Int → Ty) : Prop :=
  s.SolvedBy σ ∧ ∀ c ∈ cs, c.SolvedBy σ

/-- The bindings of a store and all constraints have a common solution. -/
def Solvable (s : Store) (cs : List Constraint) : Prop := ∃ σ, Solution s cs σ

theorem Solvable.of_subset (h : Solvable s cs) (hsub : ∀ d ∈ ds, d ∈ cs) : Solvable s ds := by
  rcases h with ⟨σ, hσ, hall⟩
  exact ⟨σ, hσ, fun d hd => hall d (hsub d hd)⟩

/-- What was solved has a solution: each variable is what it resolves to. -/
theorem solvable_of_solveList (hs : s.Acyclic) (h : (solveList s cs).2 = none) : Solvable s cs := by
  have hacyclic := (solveList_acyclic hs cs).2
  exact ⟨_, (solveList_solvedBy hs h).mp (Store.solvedBy_resolve_var hacyclic)⟩

theorem solveList_eq_none_iff (hs : s.Acyclic) (ho : s.Over .whole)
    (hc : ∀ c ∈ cs, c.Over .whole s.size) : (solveList s cs).2 = none ↔ Solvable s cs := by
  constructor
  · exact solvable_of_solveList hs
  · rintro ⟨σ, hσ, hall⟩
    exact solveList_eq_none hs ho hc hσ hall

/-- A common solution can be chosen without missing parts. -/
theorem Solvable.exists_whole (hs : s.Acyclic) (ho : s.Over .whole)
    (hc : ∀ c ∈ cs, c.Over .whole s.size) (h : Solvable s cs) :
    ∃ σ, Solution s cs σ ∧ ∀ i, (σ i).Whole := by
  have hsolved := (solveList_eq_none_iff hs ho hc).mpr h
  have hacyclic := (solveList_acyclic hs cs).2
  have hover := solveList_over hs ho hc
  refine ⟨_, (solveList_solvedBy hs hsolved).mp (Store.solvedBy_resolve_var hacyclic), ?_⟩
  intro i
  exact hover.whole_resolve hacyclic (fun hg => hg) i

/-- The constraint to blame is the first that has no solution together with those before it. -/
theorem solveList_blames (hs : s.Acyclic) (ho : s.Over .whole)
    (hc : ∀ c ∈ cs, c.Over .whole s.size) (h : (solveList s cs).2 = some (e, x)) :
    ∃ k c, cs[k]? = some c ∧ c.expr = x ∧ IsLeast {n | ¬ Solvable s (cs.take (n + 1))} k := by
  rcases solveList_stops h with ⟨before, c, after, rfl, hexpr, hbefore, _, hlast⟩
  refine ⟨before.length, c, by simp, hexpr, ?_, ?_⟩
  · show ¬ Solvable s ((before ++ c :: after).take (before.length + 1))
    have htake : (before ++ c :: after).take (before.length + 1) = before ++ [c] := by
      simp [List.take_append]
    rw [htake, ← solveList_eq_none_iff hs ho]
    · exact hlast
    · intro d hd
      apply hc d
      simp only [List.mem_append, List.mem_cons, List.not_mem_nil, or_false] at hd ⊢
      tauto
  · intro n hn
    apply Nat.le_of_not_lt
    intro hlt
    -- The constraints up to `n` are among those that were solved.
    apply hn
    apply (solvable_of_solveList hs hbefore).of_subset
    intro d hd
    rw [List.take_append_of_le_length (by omega)] at hd
    exact List.mem_of_mem_take hd

/-! ## Queues -/

theorem solve_fst (q : Queue) (s : Store) : (q.solve s).1 = solveList s q.toList := by
  unfold solve
  cases hq : solveList s q.toList with
  | mk s' failed => cases failed <;> rfl

theorem solve_snd (q : Queue) (s : Store) :
    (q.solve s).2 = if (solveList s q.toList).2 = none then #[] else q := by
  unfold solve
  cases hq : solveList s q.toList with
  | mk s' failed => cases failed <;> rfl

/-- Solving succeeds exactly if the store and all constraints have a common solution, and otherwise
blames the first contradiction. Neither success nor the solutions depend on the order. -/
theorem solve_blames_first {s : Store} (hs : s.Acyclic) {q : Queue}
    (hq : ∀ c ∈ q.toList, c.Over .whole s.size) :
    ((q.solve s).1.2 = none → (q.solve s).2 = #[] ∧ Solvable s q.toList ∧
      ∀ σ, (q.solve s).1.1.SolvedBy σ ↔ Solution s q.toList σ) ∧
    (s.Over .whole →
      ((q.solve s).1.2 = none ↔ Solvable s q.toList) ∧
      (∀ e x, (q.solve s).1.2 = some (e, x) → (q.solve s).2 = q ∧
        ∃ k c, q[k]? = some c ∧ c.expr = x ∧
          IsLeast {n | ¬ Solvable s (q.toList.take (n + 1))} k) ∧
      (∀ n, Solvable s (q.toList.take n) →
        ∃ σ, Solution s (q.toList.take n) σ ∧ ∀ i, (σ i).Whole) ∧
      (∀ q' : Queue, q'.toList.Perm q.toList →
        ((q'.solve s).1.2 = none ↔ (q.solve s).1.2 = none) ∧
        ((q.solve s).1.2 = none →
          ∀ σ, (q'.solve s).1.1.SolvedBy σ ↔ (q.solve s).1.1.SolvedBy σ))) := by
  simp only [solve_fst, solve_snd]
  constructor
  · intro h
    exact ⟨if_pos h, solvable_of_solveList hs h, fun σ => solveList_solvedBy hs h⟩
  · intro ho
    have hsolvable := solveList_eq_none_iff hs ho hq
    refine ⟨hsolvable, ?_, ?_, ?_⟩
    · intro e x h
      refine ⟨if_neg (by simp [h]), ?_⟩
      rcases solveList_blames hs ho hq h with ⟨k, c, hk, hexpr, hleast⟩
      exact ⟨k, c, by simpa using hk, hexpr, hleast⟩
    · intro n
      exact Solvable.exists_whole hs ho fun c hc => hq c (List.mem_of_mem_take hc)
    · intro q' hperm
      have hsolvable' := solveList_eq_none_iff hs ho fun c hc => hq c (hperm.mem_iff.mp hc)
      have hsame : (solveList s q'.toList).2 = none ↔ (solveList s q.toList).2 = none := by
        rw [hsolvable', hsolvable]
        simp only [Solvable, Solution, hperm.mem_iff]
      refine ⟨hsame, ?_⟩
      intro h σ
      rw [solveList_solvedBy hs (hsame.mpr h), solveList_solvedBy hs h]
      simp only [hperm.mem_iff]

/-- Two variables are equal and one is an integer, so the other is no string. -/
def clash : Queue :=
  #[⟨.var 0, .var 1, .int 1 .absent⟩, ⟨.var 0, .con "Int" [], .int 2 .absent⟩,
    ⟨.con "String" [], .var 1, .int 3 .absent⟩]

theorem solve_blames_first_clash :
    let s := (Store.freshList 2 .empty).2
    s.Acyclic ∧ s.Over .whole ∧ (∀ c ∈ clash.toList, c.Over .whole s.size) ∧
      ¬ Solvable s clash.toList ∧ ∃ k c, clash[k]? = some c ∧ c.expr = .int 3 .absent ∧
        IsLeast {n | ¬ Solvable s (clash.toList.take (n + 1))} k := by
  intro s
  have hacyclic : s.Acyclic := Store.acyclic_empty.freshList 2
  have hover : s.Over .whole := by
    intro i t hb
    rw [Store.binding?_freshList, Store.binding?_empty] at hb
    cases hb
  have hclash : ∀ c ∈ clash.toList, c.Over .whole s.size := by
    have h0 : (Ty.var 0).Over .whole s.size := .var (by decide) (by decide)
    have h1 : (Ty.var 1).Over .whole s.size := .var (by decide) (by decide)
    have hconst : ∀ name, (Ty.con name []).Over .whole s.size := fun _ => .const trivial
    simp [clash, Constraint.Over, h0, h1, hconst]
  have hsolve : (clash.solve s).1.2 =
    some (.mismatch (.con "String" []) (.con "Int" []), .int 3 .absent) := by rfl
  have hblamed := (solve_blames_first hacyclic hclash).2 hover
  refine ⟨hacyclic, hover, hclash, ?_, (hblamed.2.1 _ _ hsolve).2⟩
  rw [← hblamed.1, hsolve]
  simp

/-! ## Bindings that are refused -/

/-- A store of one variable, which is bound. -/
def single (t : Ty) : Store := Store.empty.fresh.2.bind 0 t

theorem acyclic_single {t : Ty} (h : 0 ∉ t.vars) : (single t).Acyclic := by
  have hfree : ∀ i, Store.empty.fresh.2.binding? i = none := by simp
  apply Store.acyclic_empty.fresh.bind (by decide) (hfree 0)
  intro j hj hreach
  rw [Store.eq_of_reaches (hfree j) hreach] at h
  exact h hj

/-- The only variable has to agree with itself. -/
def reflexive : Queue := #[⟨.var 0, .var 0, .int 1 .absent⟩]

/-- A variable is not unified with itself if it is bound to a type with a missing part or with the
variable of another store, though any solution of the store solves that equation. -/
theorem solve_refuses_bindings :
    (∀ t ∈ [Ty.array .absent, Ty.array (.var 7)], (single t).Acyclic ∧
      (∀ c ∈ reflexive.toList, c.Over .whole (single t).size) ∧
      Solvable (single t) reflexive.toList) ∧
    (reflexive.solve (single (.array .absent))).1.2.map Prod.fst = some (.mismatch .absent .absent) ∧
    (reflexive.solve (single (.array (.var 7)))).1.2.map Prod.fst = some (.foreign 7) := by
  refine ⟨?_, by decide, by decide⟩
  intro t ht
  have hvars : 0 ∉ t.vars := by
    revert t
    decide
  have hsize : (single t).size = 1 := by
    rw [single, Store.size_bind, Store.size_fresh]
    rfl
  have hvar : (Ty.var 0).Over .whole (single t).size := .var (by decide) (by simp [hsize])
  refine ⟨acyclic_single hvars, ?_, ?_⟩
  · intro c hc
    rw [List.mem_singleton.mp hc]
    exact ⟨hvar, hvar⟩
  · refine ⟨_, Store.solvedBy_resolve_var (acyclic_single hvars), ?_⟩
    intro c hc
    rw [List.mem_singleton.mp hc]
    rfl

end Polytype.Queue
