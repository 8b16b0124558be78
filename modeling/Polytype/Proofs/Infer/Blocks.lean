import Mathlib
import Polytype.Proofs.Expr.Renaming
import Polytype.Proofs.Infer.Simulation

/-!
# Blocks as nested expressions

A block is a way to write nested expressions: its first item can be taken out in front of the others, as
a `let` around them if it is a `let` without body, and as the effect of a sequence otherwise
(`Expr.Unrolls`). In every context the program has the same generic type as before, or the same error
(`inferGeneric_unrolls`).

The two programs do not run with the same variables. In a block a `let` without body has a type of its
own, so the block takes one more variable and one more constraint; the variable is idle in the run of the
block, into which the run of the nested expression embeds.
-/

namespace Polytype

open InferM

/-! ## Blocks -/

/-- The first item of a block is taken out in front of the others. -/
inductive Expr.Unrolls : Expr → Expr → Prop
  | letIn {name : String} {annot ty ty₁ ty₂ ty₃ : Ty} {value : Expr} {rest : List Expr} :
      rest ≠ [] → Unrolls (.block (.letIn name annot value .absent ty₁ :: rest) ty)
        (.letIn name annot value (.block rest ty₂) ty₃)
  | seq {first : Expr} {ty ty₁ ty₂ : Ty} {rest : List Expr} :
      first.boundAfter? = none → rest ≠ [] →
      Unrolls (.block (first :: rest) ty) (.seq first (.block rest ty₁) ty₂)

theorem infer_block_eq (env : Env) (x : Ty) {rest : List Expr} (hne : rest ≠ []) (ty : Ty) :
    infer env x (.block rest ty) = do
      let ds ← inferItems env x rest
      return .block ds x := by
  cases rest with
  | nil => exact absurd rfl hne
  | cons e es =>
    rw [infer]
    simp only [List.isEmpty_cons, Bool.false_eq_true, if_false]

theorem inferItems_cons_eq (env : Env) (x : Ty) (first : Expr) {rest : List Expr} (hne : rest ≠ []) :
    inferItems env x (first :: rest) = do
      let d ← infer env (← fresh) first
      return d :: (← inferItems (env.after d) x rest) := by
  cases rest with
  | nil => exact absurd rfl hne
  | cons e es =>
    rw [inferItems]
    simp

/-- A `let` around a block. -/
theorem infer_let_block_eq (env : Env) (x : Ty) (name : String) (annot : Ty) (value : Expr)
    {rest : List Expr} (hne : rest ≠ []) (ty ty' : Ty) :
    infer env x (.letIn name annot value (.block rest ty) ty') = do
      let a ← orFresh annot
      let v ← infer env a value
      let ds ← inferItems (env.declare name a) x rest
      return .letIn name a v (.block ds x) x := by
  rw [infer]
  simp only [Expr.isAbsent, Bool.false_eq_true, if_false, infer_block_eq _ _ hne, bind_assoc,
    pure_bind]

/-- A `let` in a block, before other items. -/
theorem infer_block_let_eq (env : Env) (x : Ty) (name : String) (annot : Ty) (value : Expr)
    {rest : List Expr} (hne : rest ≠ []) (ty ty' : Ty) :
    infer env x (.block (.letIn name annot value .absent ty :: rest) ty') = do
      let u ← fresh
      let a ← orFresh annot
      let v ← infer env a value
      InferM.emit u a (.letIn name a v .absent u)
      let ds ← inferItems (env.declare name a) x rest
      return .block (.letIn name a v .absent u :: ds) x := by
  rw [infer_block_eq _ _ (List.cons_ne_nil _ _), inferItems_cons_eq _ _ _ hne, bind_assoc]
  refine bind_congr fun u => ?_
  rw [infer]
  simp only [Expr.isAbsent, if_true, bind_assoc, pure_bind]
  rfl

/-- A `let` in a block needs a variable and a constraint that a `let` around a block does not need. -/
theorem Simulates.letIn_block {name : String} {annot ty ty₁ ty₂ ty₃ : Ty} {value : Expr}
    {rest : List Expr} (hn : (Expr.letIn name annot value .absent ty₁).NodeOver .all)
    (hv : Simulates value value) (hrest : List.Forall₂ Simulates rest rest) (hne : rest ≠ []) :
    Simulates (.letIn name annot value (.block rest ty₂) ty₃)
      (.block (.letIn name annot value .absent ty₁ :: rest) ty) := by
  refine ⟨rfl, fun {f K env env' x x' run run'} h he hx => ?_⟩
  rw [infer_let_block_eq _ _ _ _ _ hne, infer_block_let_eq _ _ _ _ _ hne]
  -- the variable is idle until its constraint is queued, and neither concerns the smaller run
  refine corresponds_bind_right (yields_fresh.mpr ⟨rfl, rfl⟩) ?_
  refine corresponds_bind (corresponds_orFresh h.alloc_idle hn.annot) ?_
  intro f₁ a a' run₁ run₁' _ _ hup₁ hr ha
  refine corresponds_bind (hv.runs hr (he.mono hup₁) ha) ?_
  intro f₂ v v' run₂ run₂' _ _ hup₂ hr hvalue
  have hup := hup₁.trans hup₂
  have ha₂ := ha.mono hup₂
  refine corresponds_bind_right ((yields_emit (u := ())).mpr rfl) ?_
  have hr₂ := hr.emit_idle ha₂ (.letIn name a' v' .absent (.var run'.store.size))
  refine corresponds_bind (inferItems_corresponds hr₂ ((he.mono hup).declare name ha₂) (hx.mono hup)
    hrest) ?_
  intro f₃ ds ds' run₃ run₃' _ _ _ hr hds
  exact corresponds_pure hr (.of_params (by simp [hvalue.params, hds]) rfl rfl)

/-- Any other item of a block is inferred like the effect of a sequence. -/
theorem Simulates.seq_block {first : Expr} {ty ty₁ ty₂ : Ty} {rest : List Expr}
    (hfirst : Simulates first first) (hb : first.boundAfter? = none)
    (hrest : List.Forall₂ Simulates rest rest) (hne : rest ≠ []) :
    Simulates (.seq first (.block rest ty₁) ty₂) (.block (first :: rest) ty) := by
  refine ⟨rfl, fun {f K env env' x x' run run'} h he hx => ?_⟩
  rw [infer, infer_block_eq _ _ hne, infer_block_eq _ _ (List.cons_ne_nil _ _),
    inferItems_cons_eq _ _ _ hne]
  simp only [bind_assoc, pure_bind]
  refine corresponds_bind (corresponds_fresh h) ?_
  intro f₁ u u' run₁ run₁' _ _ hup₁ hr hu
  refine corresponds_bind (hfirst.runs hr (he.mono hup₁) hu) ?_
  intro f₂ d d' run₂ run₂' _ hd' hup₂ hr hd
  rw [Env.after_eq_self ((infer_boundAfter hd').trans hb)]
  have hup := hup₁.trans hup₂
  refine corresponds_bind (inferItems_corresponds hr (he.mono hup) (hx.mono hup) hrest) ?_
  intro f₃ ds ds' run₃ run₃' _ _ _ hr hds
  exact corresponds_pure hr (.of_params (by simp [hd.params, hds]) rfl rfl)

theorem Expr.Unrolls.simulates {e e' : Expr} (h : e.Unrolls e') (he : e.Over .all) :
    Simulates e' e := by
  cases h with
  | letIn hne =>
    obtain ⟨_, hi⟩ := Expr.every_block.mp he
    rw [List.forall_mem_cons] at hi
    obtain ⟨hn, hv, _⟩ := Expr.every_letIn.mp hi.1
    exact .letIn_block hn (.refl hv) (List.forall₂_same.mpr fun a hm => .refl (hi.2 a hm)) hne
  | seq hb hne =>
    obtain ⟨_, hi⟩ := Expr.every_block.mp he
    rw [List.forall_mem_cons] at hi
    exact .seq_block (.refl hi.1) hb (List.forall₂_same.mpr fun a hm => .refl (hi.2 a hm)) hne

/-- A program with a block unrolled anywhere simulates the program with the block. -/
theorem Expr.Replaces.simulates {e e' : Expr} (h : Replaces Unrolls e e') (he : e.Over .all) :
    Simulates e' e := by
  induction h with
  | here h => exact h.simulates he
  | func _ ih =>
    obtain ⟨hn, hb⟩ := every_func.mp he
    exact .func hn (ih hb)
  | callee _ ih =>
    obtain ⟨_, hf, ha⟩ := every_call.mp he
    exact .call (ih hf) (List.forall₂_same.mpr fun a hm => .refl (ha a hm)) _ _
  | arg _ ih =>
    obtain ⟨_, hf, ha⟩ := every_call.mp he
    obtain ⟨h₁, ha, h₂⟩ := forall_mem_middle ha
    exact .call (.refl hf) (forall₂_replace (fun a hm => .refl (h₁ a hm)) (ih ha)
      fun a hm => .refl (h₂ a hm)) _ _
  | letValue _ ih =>
    obtain ⟨hn, hv, hb⟩ := every_letIn.mp he
    exact .letIn hn (ih hv) (.refl hb)
  | letBody _ ih =>
    obtain ⟨hn, hv, hb⟩ := every_letIn.mp he
    exact .letIn hn (.refl hv) (ih hb)
  | function _ ih =>
    obtain ⟨hn, hf, hb⟩ := every_group.mp he
    obtain ⟨h₁, hfn, h₂⟩ := forall_mem_middle hf
    obtain ⟨hnf, hfb⟩ := every_func.mp (hfn _ rfl)
    exact .group hn (forall₂_replace (fun b hm => .refl fun e hfe => .refl (h₁ b hm e hfe))
      (.fn (.func hnf (ih hfb))) fun b hm => .refl fun e hfe => .refl (h₂ b hm e hfe)) (.refl hb)
  | groupBody _ ih =>
    obtain ⟨hn, hf, hb⟩ := every_group.mp he
    exact .group hn (List.forall₂_same.mpr fun b hm => .refl fun e hfe => .refl (hf b hm e hfe))
      (ih hb)
  | item _ ih =>
    obtain ⟨hn, hi⟩ := every_array.mp he
    obtain ⟨h₁, ha, h₂⟩ := forall_mem_middle hi
    exact .array hn (forall₂_replace (fun a hm => .refl (h₁ a hm)) (ih ha)
      fun a hm => .refl (h₂ a hm))
  | effect _ ih =>
    obtain ⟨_, he, hv⟩ := every_seq.mp he
    exact .seq (ih he) (.refl hv) _ _
  | value _ ih =>
    obtain ⟨_, he, hv⟩ := every_seq.mp he
    exact .seq (.refl he) (ih hv) _ _
  | blockItem _ ih =>
    obtain ⟨_, hi⟩ := every_block.mp he
    obtain ⟨h₁, ha, h₂⟩ := forall_mem_middle hi
    exact .block (forall₂_replace (fun a hm => .refl (h₁ a hm)) (ih ha)
      fun a hm => .refl (h₂ a hm)) _ _

/-! ## Programs -/

/-- No type that is given in a program has a variable: no annotation, no type argument, and no generic
type of a function. -/
def Expr.Ground (e : Expr) : Prop :=
  e.Every fun n => ∀ t ∈ n.annotations ++ n.typeArguments ++ n.generics.map (·.body), t.vars = []

theorem Expr.Ground.over {e : Expr} (h : e.Ground) : e.Over .all := by
  intro n hn
  have hclosed := h n hn
  refine ⟨fun t ht _ => .of_closed (hclosed t (by simp [ht])),
    fun t ht => .of_closed (hclosed t (by simp [ht])), fun g hg => .of_closed (hclosed g.body ?_)⟩
  exact List.mem_append_right _ (List.mem_map_of_mem hg)

/-- The reason of a failure with other numbers for the variables. -/
def Trouble.renumber (f : Int → Int) : Trouble → Trouble
  | .error e => .error (e.renumber f)
  | .fault k => .fault k

/-- In an environment without variables nothing is left to be renumbered in a generic type. -/
theorem Closes.vars_eq_nil {s : Store} {env : Env} {t : Ty} {scope : Expr} {g : Scheme}
    {store? : Option Store} (h : Closes s env t scope g store?)
    (henv : env.All fun g => g.body.vars = []) (ht : ∀ v ∈ (s.resolve t).vars, s.owns v = true) :
    g.body.vars = [] := by
  rw [h.body, List.eq_nil_iff_forall_not_mem]
  intro v hv
  obtain ⟨i, hi, hv⟩ := Ty.mem_vars_subst.mp hv
  have hm : i ∈ s.generalizable env t := by
    rw [Store.mem_generalizable, Env.varsUnder_closed henv]
    exact ⟨⟨hi, ht i hi⟩, List.not_mem_nil⟩
  obtain ⟨c, hc⟩ := named_of_mem h.length.symm hm
  simp [hc] at hv

theorem inferRoot_corresponds {e e' : Expr} (h : Simulates e e') {env : Env}
    (henv : env.All fun g => g.body.vars = []) :
    Corresponds id 0 [] (fun f n r r' => r.2.Embeds f n r'.2) (inferRoot env e .start)
      (inferRoot env e' .start) := by
  rw [inferRoot, inferRoot]
  refine corresponds_bind (corresponds_fresh Run.Embeds.start) ?_
  intro f₁ u u' run₁ run₁' _ _ _ hr hu
  refine corresponds_bind (h.runs hr (.closed henv) hu) ?_
  intro f₂ d d' run₂ run₂' hd hd' hup₂ hr _
  refine corresponds_bind (corresponds_solveFor hr _ _) ?_
  intro f₃ _ _ run₃ run₃' _ _ hup₃ hr _
  refine corresponds_bind (corresponds_get hr) ?_
  rintro f₄ s s' run₄ run₄' _ _ hup₄ hr ⟨hsize, hs⟩
  obtain ⟨hover, rfl⟩ := hu.mono ((hup₂.trans hup₃).trans hup₄)
  rw [← hsize] at hover
  have hresolve : ∀ (s : Store) t, Traversals.resolve s t = .ok (s.resolve t) := fun _ _ => rfl
  dsimp only
  rw [(infer_formed e hd).retype (hresolve _), (infer_formed e' hd').retype (hresolve _)]
  refine corresponds_pure hr ⟨?_, hs.resolve hover⟩
  rw [← hsize]
  exact hs.owned.resolve hs.acyclic hover

/-- The action of a program that simulates another one gives the same generic type. -/
theorem generic_corresponds {e e' : Expr} (h : Simulates e e') {env : Env}
    (henv : env.All fun g => g.body.vars = []) :
    Corresponds id 0 [] (fun _ _ g g' => g' = g)
      ((do
        let (_, t) ← inferRoot env e
        let (g, _) ← close env t .absent
        return g : InferM Scheme) .start)
      ((do
        let (_, t) ← inferRoot env e'
        let (g, _) ← close env t .absent
        return g : InferM Scheme) .start) := by
  refine corresponds_bind (inferRoot_corresponds h henv) ?_
  rintro f₁ ⟨d, t⟩ ⟨d', t'⟩ run₁ run₁' _ _ _ hr ht
  refine corresponds_bind (corresponds_close hr (.closed henv) ht rfl ⟨[], rfl⟩ ⟨[], rfl⟩) ?_
  rintro f₂ ⟨g, store?⟩ ⟨g', store?'⟩ run₂ run₂' hc _ _ hr₂ hg
  have hcloses := closing_closes hr.store.acyclic (yields_close.mp hc).1
  have hclosed := hcloses.vars_eq_nil henv fun v hv => hr.store.owns_resolve ht.1 hv
  refine corresponds_pure hr₂ ?_
  obtain ⟨params', body'⟩ := g'
  obtain ⟨⟨_, hbody⟩, hparams⟩ := hg
  rw [Ty.renumber_closed hclosed] at hbody
  cases hparams
  cases hbody
  rfl

/-- Calls with corresponding actions have the same result. -/
theorem call_corresponds {α : Type} {e e' : Expr} (hab : e'.isAbsent = e.isAbsent) {m m' : InferM α}
    (h : Corresponds id 0 [] (fun _ _ a b => b = a) (m .start) (m' .start)) :
    ∃ f, (Context.new.call e' m').1.result =
      (Context.new.call e m).1.result.mapError (Trouble.renumber f) := by
  cases ha : e.isAbsent with
  | true =>
    refine ⟨id, ?_⟩
    rw [Context.call, Context.call, hab, ha]
    rfl
  | false =>
    have hstart : Context.new.reset.run = .start := rfl
    rw [Context.call_eq _ ha, Context.call_eq _ (hab.trans ha), hstart]
    generalize m .start = r at h ⊢
    generalize m' .start = r' at h ⊢
    cases h with
    | ok _ _ heq =>
      subst heq
      exact ⟨id, rfl⟩
    | failed f => exact ⟨f, rfl⟩
    | fault => exact ⟨id, rfl⟩

/-- A block can be unrolled anywhere in a program. If neither the environment nor the types that are given
in the program have variables, then the program has the same generic type with the block as without it, or
the same error up to the numbers of variables. -/
theorem inferGeneric_unrolls {e e' : Expr} {env : Option Env} (hr : Expr.Replaces Expr.Unrolls e e')
    (henv : (env.getD .empty).All fun g => g.body.vars = []) (he : e.Ground) :
    ∃ f : Int → Int, (Context.new.inferGeneric e env).1.result =
      (Context.new.inferGeneric e' env).1.result.mapError (Trouble.renumber f) := by
  have hs := hr.simulates he.over
  exact call_corresponds hs.absent (generic_corresponds hs henv)

/-- A function that is the value of a program. -/
def Expr.inFunction (body : Expr) : Expr :=
  .group [.fn "f" none [⟨"x", .absent⟩] .absent body .absent] (.var "f" none .absent) .absent

attribute [local simp] Binding.func? Binding.scheme Expr.annotations Expr.typeArguments Expr.generics

theorem inferGeneric_unrolls_inFunction :
    let items := [Expr.array .absent [.var "a" none .absent, .var "x" none .absent] .absent]
    let e := Expr.inFunction
      (.block (.letIn "a" .absent (.var "x" none .absent) .absent .absent :: items) .absent)
    let e' := Expr.inFunction
      (.letIn "a" .absent (.var "x" none .absent) (.block items .absent) .absent)
    Expr.Replaces Expr.Unrolls e e' ∧ e.Ground ∧
      (Context.new.inferGeneric e none).1.result =
        .ok ⟨["A"], .function [.con "A" []] (.array (.con "A" []))⟩ := by
  intro items e e'
  have hr : Expr.Replaces Expr.Unrolls e e' := by
    show Expr.Replaces Expr.Unrolls (.group ([] ++ _ :: []) _ _) (.group ([] ++ _ :: []) _ _)
    exact .function (.here (.letIn (by simp [items])))
  have hground : e.Ground := by
    simp [e, items, Expr.Ground, Expr.inFunction]
  have hunrolled : (Context.new.inferGeneric e' none).1.result =
      .ok ⟨["A"], .function [.con "A" []] (.array (.con "A" []))⟩ := by decide +kernel
  obtain ⟨f, hf⟩ := @inferGeneric_unrolls e e' none hr Env.All.empty hground
  rw [hunrolled] at hf
  exact ⟨hr, hground, hf⟩

/-- A variable in a type argument is whichever the store has under its number, and this changes when a
block is unrolled. -/
theorem exists_unrolled_with_other_type :
    ∃ (e e' : Expr) (env : Env) (g g' : Scheme), Expr.Replaces Expr.Unrolls e e' ∧
      (env.All fun g => g.body.vars = []) ∧
      (e.Every fun n => (∀ t ∈ n.annotations, t.vars = []) ∧ ∀ g ∈ n.generics, g.body.vars = []) ∧
      (Context.new.inferGeneric e (some env)).1.result = .ok g ∧
      (Context.new.inferGeneric e' (some env)).1.result = .ok g' ∧ g' ≠ g := by
  refine ⟨.block [.letIn "a" .absent (.int 1 .absent) .absent .absent,
      .var "id" (some [.var 2]) .absent] .absent,
    .letIn "a" .absent (.int 1 .absent) (.block [.var "id" (some [.var 2]) .absent] .absent) .absent,
    Env.empty.declareGeneric "id" ["T"] (.function [.con "T" []] (.con "T" [])),
    .mono (.function [.int] .int), ⟨["A"], .function [.con "A" []] (.con "A" [])⟩, ?_, ?_, ?_,
    by decide +kernel, by decide +kernel, by decide⟩
  · exact .here (.letIn (by simp))
  · exact Env.All.empty.extend (by rfl)
  · simp

end Polytype
