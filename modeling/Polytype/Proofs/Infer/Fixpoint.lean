import Mathlib
import Polytype.Proofs.Infer.Admission
import Polytype.Proofs.Infer.Reannotation

/-!
# Annotating a program again

Annotating twice is annotating once (`annotateGeneric_annotated`): what a program is annotated with can
be annotated again, gets the same generic type and prints as before.

The annotated tree checks (`infer_checks`), so it is inferred again (`infer_reannotates`). Its type in
the second run has the type of the first run as an instance, because the first run's solution extends to
the second. The other direction is `infer_admits`: the annotations do not make the tree check against
more types than the program has, so the type of the first run has that of the second as an instance. Two
types that are instances of each other get the same generic type.
-/

namespace Polytype

open InferM

section

variable {run : Run} {env Γ : Env} {s : Store}

/-! ## Types that are instances of each other -/

section

variable {s' : Store} {t t' : Ty} {scope : Expr} {g g' : Scheme} {store? store?' : Option Store}
  {f : Int → Int}

/-- The choice of variables does not count when a type is closed in an environment without variables. -/
theorem Closes.eq_of_renaming (hc : Closes s env t scope g store?)
    (hc' : Closes s' env t' scope g' store?') (henv : env.All fun g => g.body.vars = [])
    (ht : ∀ v ∈ (s.resolve t).vars, s.owns v = true)
    (ht' : ∀ v ∈ (s'.resolve t').vars, s'.owns v = true)
    (hf : ∀ i ∈ (s.resolve t).vars, ∀ j ∈ (s.resolve t).vars, f i = f j → i = j)
    (heq : s'.resolve t' = (s.resolve t).subst fun i => .var (f i)) : g' = g := by
  have hids : s'.generalizable env t' = (s.generalizable env t).map f := by
    rw [Store.generalizable_of_owns ht', Store.generalizable_of_owns ht, Env.varsUnder_closed henv,
      Env.varsUnder_closed henv, heq, Ty.vars_subst]
    exact firstsNotIn_flatMap (fun v _ _ => ⟨rfl, List.not_mem_nil⟩)
      (fun v _ hv => absurd hv List.not_mem_nil) hf
  have hparams : g'.params = g.params := by
    rw [hc'.chosen, hc.chosen, hids]
    exact nameAll_congr (by rw [heq, Ty.names_subst_var]) (List.length_map f) _ _ _
  have hbody : g'.body = g.body := by
    rw [hc'.body, hc.body, heq, Ty.subst_subst, hids, hparams]
    refine Ty.subst_congr fun i hi => ?_
    have hm : i ∈ s.generalizable env t := by
      rw [Store.mem_generalizable, Env.varsUnder_closed henv]
      exact ⟨⟨hi, ht i hi⟩, List.not_mem_nil⟩
    exact assign_map_ids (fun v hv => hf i hi v (Store.mem_generalizable.mp hv).1.1)
      (by rw [List.length_map, hc.length]) .var .var hm
  obtain ⟨params, body⟩ := g
  obtain ⟨params', body'⟩ := g'
  cases hparams
  cases hbody
  rfl

theorem closing_renaming (hs : s.Acyclic) (hs' : s'.Acyclic)
    (henv : env.All fun g => g.body.vars = []) (ht : ∀ v ∈ (s.resolve t).vars, s.owns v = true)
    (ht' : ∀ v ∈ (s'.resolve t').vars, s'.owns v = true)
    (hf : ∀ i ∈ (s.resolve t).vars, ∀ j ∈ (s.resolve t).vars, f i = f j → i = j)
    (heq : s'.resolve t' = (s.resolve t).subst fun i => .var (f i))
    (hc : closing s env t scope = .ok (g, store?)) :
    ∃ store?', closing s' env t' scope = .ok (g, store?') := by
  have hfree : (s.free (s.resolve t)).ids.isEmpty = true →
      (s'.free (s'.resolve t')).ids.isEmpty = true := by
    rw [List.isEmpty_iff, List.isEmpty_iff]
    intro hnil
    refine List.eq_nil_iff_forall_not_mem.mpr fun v hv => ?_
    rw [Store.mem_free, Store.resolve_resolve hs', heq] at hv
    obtain ⟨i, hi, _⟩ := Ty.mem_vars_subst.mp hv.1
    have hm : i ∈ (s.free (s.resolve t)).ids := by
      rw [Store.mem_free, Store.resolve_resolve hs]
      exact ⟨hi, ht i hi⟩
    rw [hnil] at hm
    cases hm
  obtain ⟨⟨g', store?'⟩, hc'⟩ := closing_isOk.mpr ((closing_isOk.mp ⟨_, hc⟩).imp_left hfree)
  obtain rfl := (closing_closes hs hc).eq_of_renaming (closing_closes hs' hc') henv ht ht' hf heq
  exact ⟨store?', hc'⟩

end

/-! ## Programs -/

/-- No annotation in a tree has a variable. -/
def Expr.AnnotationsClosed (e : Expr) : Prop :=
  e.Every fun n => (∀ a ∈ n.annotations, a.vars = []) ∧ ∀ g ∈ n.generics, g.body.vars = []

theorem Checks.over {e : Expr} {t : Ty} (h : Checks Γ e t) (hclosed : e.AnnotationsClosed) :
    e.Over .whole := by
  intro n hn
  have hfull := h.fullyAnnotated n hn
  obtain ⟨ha, hg⟩ := hclosed n hn
  exact ⟨fun a hm _ => ⟨fun _ => hfull.annotations a hm, by simp [ha a hm], fun _ _ => trivial⟩,
    by simp [hfull.typeArguments],
    fun g hm => ⟨fun _ => hfull.generics g hm, by simp [hg g hm], fun _ _ => trivial⟩⟩

/-- A type that was found in a run: it is in a vocabulary and over the run's variables, and resolved. -/
structure Run.Found (V : Vocabulary) (run : Run) (t : Ty) : Prop where
  wf : run.WF V
  type : t.Over V run.store.size
  resolved : run.store.resolve t = t

theorem inferRoot_found {V : Vocabulary} {e d : Expr} {t : Ty}
    (h : (inferRoot env e).Yields .start (d, t) run) (he : env.Over V 0) (heo : e.Over V) :
    run.Found V t := by
  obtain ⟨typed, run₁, hrun, ⟨⟩⟩ := root_run h he heo
  have hl := (infer_leads V e hrun.inferred hrun.opened hrun.scope hrun.expected heo).1.trans
    hrun.settled
  exact ⟨hl.wf, hl.wf.store.resolve hl.wf.acyclic (hrun.expected.mono hl.size),
    Store.resolve_resolve hl.wf.acyclic _⟩

/-- The tree of a program can be given to inference again. It prints as before, and the types that are
found are instances of each other. -/
theorem inferRoot_reannotates {e d : Expr} {t : Ty} (he : env.Over .ungenerated 0)
    (hpl : e.Plain .ungenerated) (hna : e.Unapplied)
    (h : (inferRoot env e).Yields .start (d, t) run) (hclosed : d.AnnotationsClosed) :
    ∃ d' u run', (inferRoot env d).Yields .start (d', u) run' ∧ d'.PrintsAs d ∧ run'.Found .whole u ∧
      (∃ τ, t.subst τ = u) ∧ ∃ τ, u.subst τ = t := by
  have hclosedEnv : env.All fun g => g.body.vars = [] := fun x g hx =>
    Ty.Over.closed (he x g hx) not_false
  have hscope : env.Over .whole 0 := fun x g hx =>
    ⟨(he x g hx).whole, (he x g hx).vars, fun _ _ => .inl trivial⟩
  have hstart : ∀ σ, (Run.start.alloc 1).SolvedBy σ := fun σ =>
    (Run.solvedBy_alloc 1).mpr ⟨fun i u hb => by simp [Run.start] at hb, by simp [Run.start]⟩
  have hbound : (0 : Int) < (Run.start.alloc 1).store.size := by
    rw [Run.size_alloc]
    omega
  have hresolve : ∀ s : Store, s.resolve = Ty.subst fun i => s.resolve (.var i) := fun s =>
    funext fun u => Store.resolve_eq_subst s u
  obtain ⟨typed, run₁, hrun, ⟨⟩⟩ := root_run h he hpl.over
  have hwf := hrun.settled.wf
  let ρ : Int → Ty := fun i => run.store.resolve (.var i)
  have hsuits : Suits ρ typed := ⟨hwf.store.whole_resolve hwf.acyclic not_false,
    fun n _ g _ p _ i hi => hwf.store.mem_consts_resolve hwf.acyclic hi⟩
  have hchecks := infer_checks e hrun.inferred hrun.opened hrun.scope hrun.expected hpl hna
    hrun.solvedBy hsuits (Env.under_closed hclosedEnv ρ)
  rw [hresolve run.store] at hclosed ⊢
  have hover := hchecks.over hclosed
  -- the first run's solution gives the tree a type, so there is a second run, which it solves
  obtain ⟨d', run₂, τ, hd, hτ, hagree, hprint, hagain⟩ := infer_reannotates _ hrun.opened.toWhole
    hscope hrun.expected.toWhole hover (hstart fun _ => ρ 0) hchecks
  have hl := (infer_leads .whole _ hd hrun.opened.toWhole (hscope.mono (Nat.zero_le _))
    hrun.expected.toWhole hover).1
  obtain ⟨run', hs⟩ := Run.solve_yields hl.wf hτ
  have hsolved := @Run.solvedBy_solve .whole run₂ run' hl.wf hs
  have hrun' : (inferRoot env (typed.mapTypes (Ty.subst ρ))).Yields .start
      (d'.mapTypes run'.store.resolve, run'.store.resolve (.var 0)) run' :=
    inferRoot_yields.mpr ⟨d', run₂, hd, hs, rfl⟩
  have hfound := inferRoot_found hrun' hscope hover
  have hempty : run'.queue = #[] := by
    obtain ⟨_, rfl⟩ := yields_solve.mp hs
    rfl
  refine ⟨_, _, run', hrun', ?_, hfound, ?_, τ, ?_⟩
  · rw [hresolve run'.store]
    exact hprint _
  · -- the tree checks against the type of the second run, so the first run admits that type
    have hcheck := hagain _ (hsolved.mp ⟨Store.solvedBy_resolve_var hfound.wf.acyclic, by simp [hempty]⟩)
    obtain ⟨τ₁, hτ₁, hagree₁⟩ := infer_admits e hrun.inferred hrun.opened hrun.scope hrun.expected hpl
      hna hrun.solvedBy hsuits (Env.under_closed hclosedEnv ρ)
      (hstart fun _ => run'.store.resolve (.var 0)) (Env.under_closed hclosedEnv _) hcheck
    refine ⟨τ₁, ?_⟩
    show (run.store.resolve (.var 0)).subst τ₁ = _
    rw [Store.subst_resolve ((hrun.solved τ₁).mpr hτ₁).store]
    exact (hagree₁ 0 le_rfl hbound).symm
  · show (run'.store.resolve (.var 0)).subst τ = _
    rw [Store.subst_resolve (hsolved.mpr hτ).store]
    exact (hagree 0 le_rfl hbound).symm

/-- Nothing in a program is annotated, and no variable is given a list of type arguments. -/
def Expr.Bare (e : Expr) : Prop :=
  e.Every fun n => (∀ a ∈ n.annotations, a = .absent) ∧ n.generics = [] ∧ n.typeArgs? = none

theorem Expr.Bare.plain {V : Vocabulary} {e : Expr} (h : e.Bare) : e.Plain V := by
  intro n hn
  obtain ⟨ha, hg, hna⟩ := h n hn
  refine ⟨⟨fun a hm hne => absurd (ha a hm) hne, fun t ht => ?_, by simp [hg]⟩, hg⟩
  cases n with
  | var name typeArgs ty =>
    obtain rfl : typeArgs = none := hna
    cases ht
  | _ => cases ht

/-- Annotating again changes nothing. A program without annotations and type arguments, in an
environment without variables and missing types in which only parameters of generic types have generated
names, is annotated. If no annotation of the tree has a variable, then the tree is annotated with the same
generic type, and prints as before. -/
theorem annotateGeneric_annotated {env : Env} {e t : Expr} {g : Scheme}
    (henv : env.All fun h => h.body.vars = [] ∧ h.body.Whole)
    (hnames : env.All fun h => ∀ c ∈ h.body.consts, c ∉ h.params → ∀ k : Nat, c ≠ genericName k)
    (hbare : e.Bare) (h : (Context.new.annotateGeneric e (some env)).1.result = .ok (t, g))
    (hclosed : t.AnnotationsClosed) :
    ∃ t', (Context.new.annotateGeneric t (some env)).1.result = .ok (t', g) ∧ t'.print = t.print := by
  have he : env.Over .ungenerated 0 := fun x h hx => by
    refine ⟨fun _ => (henv x h hx).2, by simp [(henv x h hx).1], fun c hc => ?_⟩
    by_cases hp : c ∈ h.params
    · exact .inr hp
    · exact .inl (hnames x h hx c hc hp)
  obtain ⟨_, u, run, store?, hrun, hc⟩ := annotateGeneric_result.mp h
  have hfound := inferRoot_found hrun he hbare.plain.over
  obtain ⟨t', u', run', hrun', hprint, hfound', ⟨σ, hσ⟩, τ, hτ⟩ := inferRoot_reannotates he hbare.plain
    (hbare.imp fun n hn => hn.2.2) hrun hclosed
  obtain ⟨f, hf, heq⟩ := Ty.exists_renaming hσ hτ
  rw [← hfound.resolved] at hf
  obtain ⟨store?', hc'⟩ := closing_renaming hfound.wf.acyclic hfound'.wf.acyclic
    (henv.imp fun _ hg => hg.1) (hfound.wf.owns_resolve not_false hfound.type)
    (hfound'.wf.owns_resolve not_false hfound'.type) hf
    (by rw [hfound'.resolved, hfound.resolved, heq]) hc
  have habsent : t.isAbsent = false := by
    obtain ⟨typed, run₁, htyped, _, ⟨⟩⟩ := inferRoot_yields.mp hrun
    rw [Expr.isAbsent_mapTypes, infer_isAbsent htyped]
  exact ⟨t', annotateGeneric_result.mpr ⟨habsent, u', run', store?', hrun', hc'⟩, hprint.print⟩

end

/-! ## Nested functions -/

section

attribute [local simp] Binding.func? Binding.scheme Expr.annotations Expr.typeArguments Expr.generics

/-- A function that passes its argument through one inside, used at strings and as the result. -/
def passThrough : Expr :=
  .group [.fn "f" none [⟨"x", .absent⟩] .absent
      (.group [.fn "g" none [⟨"y", .absent⟩] .absent
          (.call (.var "id" none .absent) [.var "x" none .absent] .absent) .absent]
        (.call (.var "g" none .absent) [.int 1 .absent] .absent) .absent) .absent]
    (.block [.letIn "z" .absent (.array .absent
        [.call (.var "f" none .absent) [.str "s" .absent] .absent] .absent) .absent .absent,
      .var "f" none .absent] .absent) .absent

/-- The tree of `passThrough`; the generic type of the function inside mentions the parameter of the
other. -/
def passThroughTyped : Expr :=
  .group [.fn "f" (some ⟨["B"], .function [.con "B" []] (.con "B" [])⟩) [⟨"x", .con "B" []⟩] (.con "B" [])
      (.group [.fn "g" (some ⟨["A"], .function [.con "A" []] (.con "B" [])⟩) [⟨"y", .con "A" []⟩]
          (.con "B" []) (.call (.var "id" none (.function [.con "B" []] (.con "B" [])))
            [.var "x" none (.con "B" [])] (.con "B" [])) (.function [.con "A" []] (.con "B" []))]
        (.call (.var "g" none (.function [.int] (.con "B" []))) [.int 1 .int] (.con "B" [])) (.con "B" []))
      (.function [.con "B" []] (.con "B" []))]
    (.block [.letIn "z" (.array .string) (.array .string
        [.call (.var "f" none (.function [.string] .string)) [.str "s" .string] .string]
        (.array .string)) .absent (.array .string),
      .var "f" none (.function [.var 16] (.var 16))] (.function [.var 16] (.var 16)))
    (.function [.var 16] (.var 16))

theorem annotateGeneric_annotated_passThrough :
    (Context.new.annotateGeneric passThrough (some (Env.empty.declareGeneric "id" ["T"]
        (.function [.con "T" []] (.con "T" []))))).1.result =
      .ok (passThroughTyped, ⟨["A"], .function [.con "A" []] (.con "A" [])⟩) ∧
    ∃ t', (Context.new.annotateGeneric passThroughTyped (some (Env.empty.declareGeneric "id" ["T"]
        (.function [.con "T" []] (.con "T" []))))).1.result =
        .ok (t', ⟨["A"], .function [.con "A" []] (.con "A" [])⟩) ∧
      t'.print = passThroughTyped.print := by
  have hbare : passThrough.Bare := by
    simp [passThrough, Expr.Bare, Expr.typeArgs?]
  have hclosed : passThroughTyped.AnnotationsClosed := by
    simp [passThroughTyped, Expr.AnnotationsClosed, Ty.function, Ty.array, Ty.string]
  refine ⟨?first, annotateGeneric_annotated (Env.All.empty.extend ⟨by rfl, by simp [Ty.function]⟩)
    (Env.All.empty.extend (by simp [Ty.function, Ty.consts, Ty.consts.constsArgs])) hbare ?first
    hclosed⟩
  cbv

/-! ## Trees that are not annotated again -/

/-- An array of a value that has no type, with the type of the array. -/
def boxMissing (t : Ty) : Expr :=
  .letIn "z" t (.array .absent [.var "x" none .absent] t) (.var "z" none t) t

/-- A function that calls itself with an empty list of type arguments, with the types of all parts. -/
def callSelf (g : Option Scheme) (param result func value : Ty) : Expr :=
  .group [.fn "f" g [⟨"x", param⟩] result
      (.call (.var "f" (some []) func) [.var "x" none param] result) func] (.int 1 value) value

/-- Not every tree can be annotated again. A missing type is not equal to itself, where it is an
annotation now; and a list of type arguments, though empty, is counted against the parameters that a
function has got. -/
theorem exists_annotated_and_not_again :
    ((boxMissing .absent).Bare ∧ (boxMissing (.array .absent)).AnnotationsClosed ∧
      (Context.new.annotateGeneric (boxMissing .absent)
        (some (Env.empty.declare "x" .absent))).1.result =
          .ok (boxMissing (.array .absent), .mono (.array .absent)) ∧
      (Context.new.annotateGeneric (boxMissing (.array .absent))
        (some (Env.empty.declare "x" .absent))).1.result =
          .error (.error (.unify (.mismatch .absent .absent)))) ∧
    ((callSelf none .absent .absent .absent .absent).Every (fun n =>
        (∀ a ∈ n.annotations, a = .absent) ∧ n.generics = [] ∧ n.typeArguments = []) ∧
      (callSelf (some ⟨["A", "B"], .function [.con "A" []] (.con "B" [])⟩) (.con "A" []) (.con "B" [])
        (.function [.con "A" []] (.con "B" [])) .int).AnnotationsClosed ∧
      (Context.new.annotateGeneric (callSelf none .absent .absent .absent .absent)
        (some .empty)).1.result =
          .ok (callSelf (some ⟨["A", "B"], .function [.con "A" []] (.con "B" [])⟩) (.con "A" [])
            (.con "B" []) (.function [.con "A" []] (.con "B" [])) .int, .mono .int) ∧
      (Context.new.annotateGeneric (callSelf (some ⟨["A", "B"], .function [.con "A" []] (.con "B" [])⟩)
        (.con "A" []) (.con "B" []) (.function [.con "A" []] (.con "B" [])) .int)
        (some .empty)).1.result = .error (.error (.arity "f" 2 0))) := by
  refine ⟨⟨?_, ?_, by cbv, by cbv⟩, ?_, ?_, by cbv, by cbv⟩
  · simp [boxMissing, Expr.Bare, Expr.typeArgs?]
  · simp [boxMissing, Expr.AnnotationsClosed, Ty.array]
  · simp [callSelf]
  · simp [callSelf, Expr.AnnotationsClosed, Ty.function]

end

end Polytype
