import Mathlib
import Polytype.Config
import Polytype.Document.Decode
import Polytype.Proofs.Env
import Polytype.Proofs.Expr.Formed
import Polytype.Proofs.Fault
import Polytype.Proofs.Ty.Reading

/-!
# Programs and environments that are read

A document is read level by level; `Document.level_sound` says that a level gives a well-formed
expression, all of whose types are written out, if the expressions below it are. Likewise every name of
an environment that a configuration describes has a type, and that is a written one.
-/

namespace Polytype

namespace Document

open Polytype.Yaml (Node Entry Scalars)

/-! ## Results -/

section

variable {α β : Type}

theorem pure_ok {a b : α} : (pure a : Result α) = .ok b ↔ a = b := by
  simp [pure, Except.pure]

theorem map_ok {r : Result α} {f : α → β} {b : β} :
    (f <$> r) = .ok b ↔ ∃ a, r = .ok a ∧ f a = b := by
  cases r with
  | error e => simp [Functor.map, Except.map]
  | ok a => simp [Functor.map, Except.map]

theorem mapM_ok {f : Node → Result β} {ns : List Node} {bs : List β} (h : ns.mapM f = .ok bs) :
    ∀ b ∈ bs, ∃ n ∈ ns, f n = .ok b := by
  induction ns generalizing bs with
  | nil =>
    cases h
    simp
  | cons n ns ih =>
    rw [List.mapM_cons, bind_eq_ok] at h
    obtain ⟨b, hb, h⟩ := h
    obtain ⟨bs', hbs, h⟩ := bind_eq_ok.mp h
    obtain rfl := pure_ok.mp h
    rw [List.forall_mem_cons]
    refine ⟨⟨n, List.mem_cons_self, hb⟩, fun c hc => ?_⟩
    obtain ⟨m, hm, hmc⟩ := ih hbs c hc
    exact ⟨m, List.mem_cons_of_mem _ hm, hmc⟩

theorem optional_ok {fs : List Field} {name : String} {absent a : α} {read : Node → Result α}
    (h : optional fs name absent read = .ok a) : a = absent ∨ ∃ n, read n = .ok a := by
  rw [optional] at h
  split at h
  · exact .inr ⟨_, h⟩
  · cases h
    exact .inl rfl

end

/-! ## Types -/

theorem type_written {n : Node} {t : Ty} (h : type n = .ok t) : t.Written := by
  rw [type, bind_eq_ok] at h
  obtain ⟨source, _, h⟩ := h
  split at h
  · obtain rfl := pure_ok.mp h
    exact Ty.parse_written ‹_›
  · cases h

theorem types_written {n : Node} {ts : List Ty} (h : types n = .ok ts) : ∀ t ∈ ts, t.Written := by
  rw [types, bind_eq_ok] at h
  obtain ⟨ns, _, h⟩ := h
  intro t ht
  obtain ⟨m, _, hm⟩ := mapM_ok h t ht
  exact type_written hm

theorem genericType_written {n : Node} {g : Scheme} (h : genericType n = .ok g) : g.body.Written := by
  rw [genericType, bind_eq_ok] at h
  obtain ⟨source, _, h⟩ := h
  split at h
  · obtain rfl := pure_ok.mp h
    exact Scheme.parse_written ‹_›
  · cases h

/-- An annotation is left out or written. -/
def Annotated (t : Ty) : Prop := t ≠ .absent → t.Written

theorem optional_annotated {fs : List Field} {name : String} {t : Ty}
    (h : optional fs name .absent type = .ok t) : Annotated t := by
  rcases optional_ok h with rfl | ⟨n, hn⟩
  · exact fun hne => absurd rfl hne
  · exact fun _ => type_written hn

theorem param_annotated {n : Node} {p : Param} (h : param n = .ok p) : Annotated p.ty := by
  rw [param, bind_eq_ok] at h
  obtain ⟨source, _, h⟩ := h
  dsimp only at h
  split at h
  · cases h
  · split at h
    · obtain rfl := pure_ok.mp h
      exact fun hne => absurd rfl hne
    · split at h
      · obtain rfl := pure_ok.mp h
        exact fun _ => Ty.parse_written ‹_›
      · cases h

/-! ## Expressions -/

/-- A well-formed expression whose types are written out. -/
structure Decoded (e : Expr) : Prop where
  formed : e.Formed
  written : e.Over .whole

/-- What a reader reads is well formed. -/
def Sound (read : Node → Result Expr) : Prop := ∀ n e, read n = .ok e → Decoded e

section

variable {read : Node → Result Expr} {e : Expr}

theorem exprs_decoded (hread : Sound read) {n : Node} {es : List Expr} (h : exprs read n = .ok es) :
    ∀ e ∈ es, Decoded e := by
  rw [exprs, bind_eq_ok] at h
  obtain ⟨ns, _, h⟩ := h
  intro e he
  obtain ⟨m, _, hm⟩ := mapM_ok h e he
  exact hread m e hm

/-- Nodes without types of their own. -/
theorem nodeOver_of_bare {e : Expr} (ha : e.annotations = []) (ht : e.typeArguments = [])
    (hg : e.generics = []) : e.NodeOver .whole :=
  ⟨by simp [ha], by simp [ht], by simp [hg]⟩

theorem Decoded.int (value : Int64) : Decoded (.int value .absent) :=
  ⟨.int value .absent, Expr.every_int.mpr (nodeOver_of_bare rfl rfl rfl)⟩

theorem Decoded.str (value : String) : Decoded (.str value .absent) :=
  ⟨.str value .absent, Expr.every_str.mpr (nodeOver_of_bare rfl rfl rfl)⟩

theorem Decoded.var (name : String) {args : Option (List Ty)}
    (h : ∀ ts, args = some ts → ∀ t ∈ ts, t.Written) : Decoded (.var name args .absent) := by
  refine ⟨.var name args .absent, Expr.every_var.mpr
    ⟨by simp [Expr.annotations], fun t ht => ?_, by simp [Expr.generics]⟩⟩
  cases args with
  | none => simp [Expr.typeArguments] at ht
  | some ts => exact h ts rfl t ht

theorem intLiteral_decoded [Scalars] {n : Node} (h : intLiteral n = .ok e) : Decoded e := by
  unfold intLiteral at h
  split at h
  · split at h
    · cases h
      exact .int _
    · cases h
  · cases h

theorem strLiteral_decoded {n : Node} (h : strLiteral n = .ok e) : Decoded e := by
  unfold strLiteral at h
  split at h
  · cases h
    exact .str _
  · cases h

theorem scalar_decoded [Scalars] {mark : Yaml.Mark} {style : Yaml.Style} {tag value : String}
    (h : scalar mark style tag value = .ok e) : Decoded e := by
  rw [scalar] at h
  split_ifs at h
  · cases h
    exact .str _
  · exact intLiteral_decoded h
  · cases h
    exact .var _ (by simp)

/-- The parts of a function that is read. -/
structure DecodedFunction (params : List Param) (result : Ty) (body : Expr) : Prop where
  params : ∀ p ∈ params, Annotated p.ty
  result : Annotated result
  body : Decoded body

theorem DecodedFunction.func {params : List Param} {result : Ty} {body : Expr}
    (h : DecodedFunction params result body) (ty : Ty) : Decoded (.func params result body ty) := by
  refine ⟨.func h.body.formed, Expr.every_func.mpr ⟨⟨fun t ht => ?_, by simp [Expr.typeArguments],
    by simp [Expr.generics]⟩, h.body.written⟩⟩
  rcases List.mem_append.mp ht with ht | ht
  · obtain ⟨p, hp, rfl⟩ := List.mem_map.mp ht
    exact h.params p hp
  · rw [List.mem_singleton.mp ht]
    exact h.result

theorem function_decoded (hread : Sound read) {n : Node} {fs : List Field} {params : List Param}
    {result : Ty} {body : Expr} (h : function read n fs = .ok (params, result, body)) :
    DecodedFunction params result body := by
  rw [function, bind_eq_ok] at h
  obtain ⟨ns, _, h⟩ := h
  obtain ⟨ps, hps, h⟩ := bind_eq_ok.mp h
  obtain ⟨r, hr, h⟩ := bind_eq_ok.mp h
  split at h
  · cases h
  · obtain ⟨b, hb, h⟩ := bind_eq_ok.mp h
    cases pure_ok.mp h
    refine ⟨fun p hp => ?_, optional_annotated hr, hread _ _ hb⟩
    obtain ⟨m, _, hm⟩ := mapM_ok hps p hp
    exact param_annotated hm

/-- A function of a group that is read. -/
structure DecodedBinding (b : Binding) : Prop where
  func : ∃ f, b.func? = some f ∧ Decoded f
  scheme : ∀ g, b.scheme = some g → g.body.Written

theorem binding_decoded (hread : Sound read) {n : Node} {b : Binding} (h : binding read n = .ok b) :
    DecodedBinding b := by
  cases n with
  | mapping mark entries =>
    unfold binding at h
    obtain ⟨fs, _, h⟩ := bind_eq_ok.mp h
    obtain ⟨_, _, h⟩ := bind_eq_ok.mp h
    dsimp only at h
    cases hname : value? fs "name" with
    | none =>
      rw [hname] at h
      cases h
    | some nameNode =>
      rw [hname] at h
      obtain ⟨name, _, h⟩ := bind_eq_ok.mp h
      obtain ⟨g?, hg, h⟩ := bind_eq_ok.mp h
      cases hparams : value? fs "fn" with
      | none =>
        rw [hparams] at h
        cases h
      | some params =>
        rw [hparams] at h
        obtain ⟨⟨ps, result, body⟩, hf, h⟩ := bind_eq_ok.mp h
        obtain rfl := pure_ok.mp h
        refine ⟨⟨_, rfl, (function_decoded hread hf).func .absent⟩, ?_⟩
        rintro g rfl
        rcases optional_ok hg with hnone | ⟨m, hm⟩
        · cases hnone
        · obtain ⟨g', hg', heq⟩ := map_ok.mp hm
          cases heq
          exact genericType_written hg'
  | _ => cases h

theorem Decoded.letIn {name : String} {annot : Ty} {value body : Expr} (ha : Annotated annot)
    (hv : Decoded value) (hb : body = .absent ∨ Decoded body) :
    Decoded (.letIn name annot value body .absent) := by
  have hnode : (Expr.letIn name annot value body .absent).NodeOver .whole :=
    ⟨List.forall_mem_singleton.mpr ha, by simp [Expr.typeArguments], by simp [Expr.generics]⟩
  rcases hb with rfl | hb
  · exact ⟨.letAlone hv.formed, Expr.every_letIn.mpr ⟨hnode, hv.written, Expr.every_absent⟩⟩
  · exact ⟨.letIn hv.formed hb.formed, Expr.every_letIn.mpr ⟨hnode, hv.written, hb.written⟩⟩

theorem Decoded.group {bs : List Binding} {body : Expr} (hbs : ∀ b ∈ bs, DecodedBinding b)
    (hb : Decoded body) : Decoded (.group bs body .absent) := by
  have hfunc : ∀ b ∈ bs, ∀ f, b.func? = some f → Decoded f := by
    intro b hm f hf
    obtain ⟨f', hf', hd⟩ := (hbs b hm).func
    rw [hf] at hf'
    cases hf'
    exact hd
  refine ⟨.group (fun b hm => ?_) (fun b hm f hf => (hfunc b hm f hf).formed) hb.formed,
    Expr.every_group.mpr ⟨⟨by simp [Expr.annotations], by simp [Expr.typeArguments], fun g hg => ?_⟩,
      fun b hm f hf => (hfunc b hm f hf).written, hb.written⟩⟩
  · obtain ⟨f, hf, _⟩ := (hbs b hm).func
    rw [hf]
    rfl
  · obtain ⟨b, hm, hg⟩ := List.mem_filterMap.mp hg
    exact (hbs b hm).scheme g hg

theorem formed_decoded [Scalars] (hread : Sound read) {whole head : Node} {fs : List Field} {f : Form}
    (h : formed read whole head fs f = .ok e) : Decoded e := by
  cases f with
  | int => exact intLiteral_decoded h
  | str => exact strLiteral_decoded h
  | var =>
    unfold formed at h
    obtain ⟨name, _, h⟩ := bind_eq_ok.mp h
    obtain ⟨args, ha, h⟩ := bind_eq_ok.mp h
    obtain rfl := pure_ok.mp h
    refine .var name fun ts hts => ?_
    subst hts
    rcases optional_ok ha with hnone | ⟨n, hn⟩
    · cases hnone
    · obtain ⟨ts', hts', heq⟩ := map_ok.mp hn
      cases heq
      exact types_written hts'
  | fn =>
    unfold formed at h
    obtain ⟨⟨ps, result, body⟩, hf, h⟩ := bind_eq_ok.mp h
    obtain rfl := pure_ok.mp h
    exact (function_decoded hread hf).func .absent
  | call =>
    unfold formed at h
    obtain ⟨callee, hc, h⟩ := bind_eq_ok.mp h
    obtain ⟨args, ha, h⟩ := bind_eq_ok.mp h
    obtain rfl := pure_ok.mp h
    have hcallee := hread _ _ hc
    have hargs : ∀ a ∈ args, Decoded a := by
      rcases optional_ok ha with rfl | ⟨n, hn⟩
      · simp
      · exact exprs_decoded hread hn
    exact ⟨.call hcallee.formed fun a ham => (hargs a ham).formed, Expr.every_call.mpr
      ⟨nodeOver_of_bare rfl rfl rfl, hcallee.written, fun a ham => (hargs a ham).written⟩⟩
  | letIn =>
    unfold formed at h
    obtain ⟨name, _, h⟩ := bind_eq_ok.mp h
    obtain ⟨annot, ha, h⟩ := bind_eq_ok.mp h
    split at h
    · cases h
    · obtain ⟨value, hv, h⟩ := bind_eq_ok.mp h
      obtain ⟨body, hb, h⟩ := bind_eq_ok.mp h
      obtain rfl := pure_ok.mp h
      refine .letIn (optional_annotated ha) (hread _ _ hv) ?_
      rcases optional_ok hb with rfl | ⟨n, hn⟩
      · exact .inl rfl
      · exact .inr (hread _ _ hn)
  | array =>
    unfold formed at h
    obtain ⟨es, hes, h⟩ := bind_eq_ok.mp h
    obtain ⟨item, hi, h⟩ := bind_eq_ok.mp h
    obtain rfl := pure_ok.mp h
    have hitems := exprs_decoded hread hes
    have hnode : (Expr.array item es .absent).NodeOver .whole :=
      ⟨List.forall_mem_singleton.mpr (optional_annotated hi), by simp [Expr.typeArguments],
        by simp [Expr.generics]⟩
    exact ⟨.array fun d hd => (hitems d hd).formed,
      Expr.every_array.mpr ⟨hnode, fun d hd => (hitems d hd).written⟩⟩
  | group =>
    unfold formed at h
    obtain ⟨ns, _, h⟩ := bind_eq_ok.mp h
    obtain ⟨bs, hbs, h⟩ := bind_eq_ok.mp h
    split at h
    · cases h
    · obtain ⟨body, hb, h⟩ := bind_eq_ok.mp h
      obtain rfl := pure_ok.mp h
      refine .group (fun b hm => ?_) (hread _ _ hb)
      obtain ⟨n, _, hn⟩ := mapM_ok hbs b hm
      exact binding_decoded hread hn
  | seq =>
    unfold formed at h
    obtain ⟨es, hes, h⟩ := bind_eq_ok.mp h
    split at h
    · obtain rfl := pure_ok.mp h
      have hparts := exprs_decoded hread hes
      rw [List.forall_mem_cons, List.forall_mem_singleton] at hparts
      exact ⟨.seq hparts.1.formed hparts.2.formed, Expr.every_seq.mpr
        ⟨nodeOver_of_bare rfl rfl rfl, hparts.1.written, hparts.2.written⟩⟩
    · cases h
  | block =>
    unfold formed at h
    obtain ⟨es, hes, h⟩ := bind_eq_ok.mp h
    obtain rfl := pure_ok.mp h
    have hitems := exprs_decoded hread hes
    exact ⟨.block fun d hd => (hitems d hd).formed, Expr.every_block.mpr
      ⟨nodeOver_of_bare rfl rfl rfl, fun d hd => (hitems d hd).written⟩⟩

/-- A level gives well-formed expressions if the levels below it do. -/
theorem level_sound [Scalars] (hread : Sound read) : Sound (level read) := by
  intro n e h
  cases n with
  | scalar mark style tag value => exact scalar_decoded h
  | sequence mark items => cases h
  | reference mark target => exact hread target e h
  | mapping mark entries =>
    unfold level at h
    obtain ⟨fs, _, h⟩ := bind_eq_ok.mp h
    obtain ⟨⟨f, head⟩, _, h⟩ := bind_eq_ok.mp h
    obtain ⟨_, _, h⟩ := bind_eq_ok.mp h
    exact formed_decoded hread h

theorem readTo_sound [Scalars] (depth : Nat) : Sound (readTo depth) := by
  induction depth with
  | zero =>
    intro n e h
    cases h
  | succ depth ih => exact level_sound ih

end

end Document

/-- The expression that a tree of nodes describes is well formed. -/
theorem Expr.ofNode_decoded [Yaml.Scalars] {n : Yaml.Node} {e : Expr} (h : Expr.ofNode n = .ok e) :
    Document.Decoded e :=
  Document.readTo_sound n.depth n e h

/-! ## Environments -/

/-- Every name that is bound has a type, and that is a written one. -/
structure Env.Written (env : Env) : Prop where
  present : env.Present
  types : env.All fun g => g.body.Written

namespace Env.Written

theorem empty : Env.empty.Written :=
  ⟨fun x => by rw [Env.lookup?_empty]; simp, .empty⟩

theorem extend {env : Env} (h : env.Written) {g : Scheme} (hg : g.body.Written) (name : String) :
    (env.extend name (some g)).Written :=
  ⟨h.present.extend name g, h.types.extend hg⟩

theorem extendAll {env : Env} (h : env.Written) {bs : List (String × Scheme)}
    (hbs : ∀ b ∈ bs, b.2.body.Written) :
    (env.extendAll (bs.map fun (name, g) => (name, some g))).Written := by
  induction bs generalizing env with
  | nil => exact h
  | cons b bs ih =>
    rw [List.forall_mem_cons] at hbs
    exact ih (h.extend hbs.1 b.1) hbs.2

/-- The standard environment has written types. -/
theorem prelude : Env.prelude.Written := by
  have hcon : ∀ c, (Ty.con c []).Written := fun c => .con (by simp)
  have hfun : ∀ {ts : List Ty} {r : Ty}, (∀ t ∈ ts, t.Written) → r.Written →
      (Ty.function ts r).Written := fun hts hr => Ty.Over.function hts hr
  have hpair : ∀ c, ∀ t ∈ [Ty.con c [], .con c []], t.Written := fun c t ht => by
    rcases List.mem_pair.mp ht with rfl | rfl <;> exact hcon c
  have hthunk : (Ty.function [] (.con "T" [])).Written := hfun (by simp) (hcon "T")
  refine empty.extendAll fun b hb => ?_
  rcases List.mem_append.mp hb with hb | hb
  · rcases List.mem_append.mp hb with hb | hb
    · obtain ⟨op, _, rfl⟩ := List.mem_map.mp hb
      exact hfun (hpair "Int") (hcon "Int")
    · obtain ⟨op, _, rfl⟩ := List.mem_map.mp hb
      exact hfun (hpair "Int") (hcon "Bool")
  · simp only [List.mem_cons, List.not_mem_nil, or_false] at hb
    rcases hb with rfl | rfl | rfl | rfl | rfl
    · exact hfun (List.forall_mem_singleton.mpr (hcon "Bool")) (hcon "Bool")
    · exact hfun (hpair "String") (hcon "String")
    · exact hcon "Bool"
    · exact hcon "Bool"
    · refine hfun (fun t ht => ?_) (hcon "T")
      simp only [List.mem_cons, List.not_mem_nil, or_false] at ht
      rcases ht with rfl | rfl | rfl
      · exact hcon "Bool"
      · exact hthunk
      · exact hthunk

end Env.Written

/-- The environment that a configuration describes has written types. -/
theorem Config.env_written {c : Config} {env : Env} (h : c.env = .ok env) : env.Written := by
  have hextend : ∀ (bs : List (String × String)) (start : Env), start.Written →
      Config.extend start bs = .ok env → env.Written := by
    intro bs
    induction bs with
    | nil =>
      rintro start hs ⟨⟩
      exact hs
    | cons b bs ih =>
      intro start hs hb
      rw [Config.extend] at hb
      split at hb
      · exact ih _ (hs.extend (Scheme.parse_written ‹_›) _) hb
      · cases hb
  rw [Config.env] at h
  refine hextend _ _ ?_ h
  split
  · exact .prelude
  · exact .empty

end Polytype
