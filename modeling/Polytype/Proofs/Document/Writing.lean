import Mathlib
import Polytype.Proofs.Document.Comparison
import Polytype.Proofs.Expr.Formed
import Polytype.Proofs.Text.Numerals
import Polytype.Proofs.Ty.RoundTrip

/-!
# Documents of expressions

`Expr.document` writes an expression as a tree of nodes: each node of the expression is a mapping that
shows its form, with a field for everything that is given at it. Types are written as texts. What can be
written is read back (`ofNode_document`), but for the inferred types, which a document has no place for.

A mapping is written from a list of all fields that its form has, some of which may be left out
(`given`). Whether it has the fields that a rule asks for can then be read off the list.
-/

namespace Polytype

open Polytype.Text
open Polytype.Yaml (Node Entry Mark Scalars)
open Tokens (Spells isName)

/-! ## Writing -/

namespace Document

/-- The place of all nodes of a tree that is not read from a text. -/
def nowhere : Mark := ⟨0, 0⟩

/-- A text. -/
def textNode (s : String) : Node := .scalar nowhere .doubleQuoted "!!str" s

/-- A list. -/
def listNode (items : List Node) : Node := .sequence nowhere items

/-- The entries of the fields that are not left out. -/
def given (fs : List (String × Option Node)) : List Entry :=
  fs.filterMap fun f => f.2.map (.mk (textNode f.1))

/-- A mapping of fields. -/
def fieldsNode (fs : List (String × Option Node)) : Node := .mapping nowhere (given fs)

/-- A type, if there is one. -/
def typeNode? : Ty → Option Node
  | .absent => none
  | t => some (textNode t.text)

/-- The parameters of a function. -/
def paramsNode (params : List Param) : Node := listNode (params.map fun p => textNode p.text)

end Document

namespace Expr

open Document

mutual

/-- The tree of nodes that describes an expression. Where an expression is missing or unknown there is an
empty list, which describes none. -/
def document : Expr → Node
  | absent => listNode []
  | int value _ => fieldsNode
      [("int", some (.scalar nowhere .plain "!!int" (Text.integer value.toInt)))]
  | str value _ => fieldsNode [("str", some (textNode value))]
  | var name typeArgs _ => fieldsNode
      [("var", some (textNode name)),
        ("types", typeArgs.map fun ts => listNode (ts.map fun t => textNode t.text))]
  | func params result body _ => fieldsNode
      [("fn", some (paramsNode params)), ("returns", typeNode? result), ("body", some (document body))]
  | call callee args _ => fieldsNode
      [("call", some (document callee)), ("args", some (listNode (documents args)))]
  | letIn name annot value body _ => fieldsNode
      [("let", some (textNode name)), ("type", typeNode? annot), ("value", some (document value)),
        ("in", if body.isAbsent then none else some (document body))]
  | group bindings body _ => fieldsNode
      [("group", some (listNode (bindingDocuments bindings))), ("in", some (document body))]
  | array item items _ => fieldsNode
      [("array", some (listNode (documents items))), ("of", typeNode? item)]
  | seq effect value _ => fieldsNode [("seq", some (listNode [document effect, document value]))]
  | block items _ => fieldsNode [("block", some (listNode (documents items)))]
  | other _ => listNode []

/-- The trees of some expressions. -/
def documents : List Expr → List Node
  | [] => []
  | e :: es => document e :: documents es

/-- The tree of a function of a group. -/
def bindingDocument : Binding → Node
  | .fn name scheme params result body _ => fieldsNode
      [("name", some (textNode name)), ("type", scheme.map fun g => textNode g.text),
        ("fn", some (paramsNode params)), ("returns", typeNode? result), ("body", some (document body))]
  | .missing .. => listNode []

/-- The trees of the functions of a group. -/
def bindingDocuments : List Binding → List Node
  | [] => []
  | b :: bs => bindingDocument b :: bindingDocuments bs

end

mutual

/-- An expression without inferred types. -/
def uninferred : Expr → Expr
  | absent => absent
  | int value _ => int value .absent
  | str value _ => str value .absent
  | var name typeArgs _ => var name typeArgs .absent
  | func params result body _ => func params result (uninferred body) .absent
  | call callee args _ => call (uninferred callee) (uninferredList args) .absent
  | letIn name annot value body _ => letIn name annot (uninferred value) (uninferred body) .absent
  | group bindings body _ => group (uninferredBindings bindings) (uninferred body) .absent
  | array item items _ => array item (uninferredList items) .absent
  | seq effect value _ => seq (uninferred effect) (uninferred value) .absent
  | block items _ => block (uninferredList items) .absent
  | other kind => other kind

/-- Expressions without inferred types. -/
def uninferredList : List Expr → List Expr
  | [] => []
  | e :: es => uninferred e :: uninferredList es

/-- A function of a group without inferred types. -/
def uninferredBinding : Binding → Binding
  | .fn name scheme params result body _ => .fn name scheme params result (uninferred body) .absent
  | .missing name scheme => .missing name scheme

/-- The functions of a group without inferred types. -/
def uninferredBindings : List Binding → List Binding
  | [] => []
  | b :: bs => uninferredBinding b :: uninferredBindings bs

end

attribute [local simp] document documents bindingDocument bindingDocuments uninferred uninferredList
  uninferredBinding uninferredBindings

theorem documents_eq (es : List Expr) : documents es = es.map document := by
  induction es with
  | nil => simp
  | cons e es ih => simp [ih]

theorem bindingDocuments_eq (bs : List Binding) : bindingDocuments bs = bs.map bindingDocument := by
  induction bs with
  | nil => simp
  | cons b bs ih => simp [ih]

theorem uninferredList_eq (es : List Expr) : uninferredList es = es.map uninferred := by
  induction es with
  | nil => simp
  | cons e es ih => simp [ih]

theorem uninferredBindings_eq (bs : List Binding) :
    uninferredBindings bs = bs.map uninferredBinding := by
  induction bs with
  | nil => simp
  | cons b bs ih => simp [ih]

/-- Without inferred types nothing is lost if there are none. -/
theorem uninferred_eq_self {e : Expr} (h : e.Every (·.ty = .absent)) : e.uninferred = e := by
  have hlist : ∀ {es : List Expr}, (∀ e ∈ es, e.Every (·.ty = .absent)) →
      (∀ e ∈ es, e.Every (·.ty = .absent) → e.uninferred = e) → uninferredList es = es := by
    intro es hes ih
    rw [uninferredList_eq]
    exact (List.map_congr_left fun e he => ih e he (hes e he)).trans (List.map_id es)
  induction e with
  | absent | other => rfl
  | int value ty =>
    obtain rfl : ty = .absent := every_int.mp h
    rfl
  | str value ty =>
    obtain rfl : ty = .absent := every_str.mp h
    rfl
  | var name typeArgs ty =>
    obtain rfl : ty = .absent := every_var.mp h
    rfl
  | func params result body ty ih =>
    obtain ⟨rfl, hbody⟩ : ty = .absent ∧ _ := every_func.mp h
    rw [uninferred, ih hbody]
  | call callee args ty ihf iha =>
    obtain ⟨rfl, hcallee, hargs⟩ : ty = .absent ∧ _ := every_call.mp h
    rw [uninferred, ihf hcallee, hlist hargs iha]
  | letIn name annot value body ty ihv ihb =>
    obtain ⟨rfl, hvalue, hbody⟩ : ty = .absent ∧ _ := every_letIn.mp h
    rw [uninferred, ihv hvalue, ihb hbody]
  | group bindings body ty ihf ihb =>
    obtain ⟨rfl, hfns, hbody⟩ : ty = .absent ∧ _ := every_group.mp h
    have hbinding : ∀ b ∈ bindings, uninferredBinding b = b := by
      intro b hb
      cases b with
      | missing name scheme => rfl
      | fn name scheme params result body ty =>
        have hfn := ihf _ hb _ rfl (hfns _ hb _ rfl)
        rw [uninferred, func.injEq] at hfn
        rw [uninferredBinding, hfn.2.2.1, ← hfn.2.2.2]
    rw [uninferred, ihb hbody, uninferredBindings_eq,
      (List.map_congr_left hbinding).trans (List.map_id bindings)]
  | array item items ty ih =>
    obtain ⟨rfl, hitems⟩ : ty = .absent ∧ _ := every_array.mp h
    rw [uninferred, hlist hitems ih]
  | seq effect value ty ihe ihv =>
    obtain ⟨rfl, heffect, hvalue⟩ : ty = .absent ∧ _ := every_seq.mp h
    rw [uninferred, ihe heffect, ihv hvalue]
  | block items ty ih =>
    obtain ⟨rfl, hitems⟩ : ty = .absent ∧ _ := every_block.mp h
    rw [uninferred, hlist hitems ih]

end Expr

/-! ## What can be written -/

/-- A type without variables whose constructors are called by names. -/
structure Ty.Writable (t : Ty) : Prop where
  written : t.Written
  named : t.Named

/-- A generic type with different parameters. -/
structure Scheme.Writable (g : Scheme) : Prop where
  body : g.body.Writable
  params : ∀ p ∈ g.params, isName p.toList
  distinct : g.params.Nodup

/-- The name of a parameter: it is not empty, and has neither a colon nor white space around it. -/
structure Param.Writable (p : Param) : Prop where
  nonEmpty : p.name ≠ ""
  colon : ':' ∉ p.name.toList
  first : ∀ c ∈ p.name.toList.head?, isBlank c = false
  last : ∀ c ∈ p.name.toList.getLast?, isBlank c = false

namespace Expr

/-- The names of variables and functions that a node mentions or binds, but for parameters. -/
def ownNames : Expr → List String
  | var name .. => [name]
  | letIn name .. => [name]
  | group bindings _ _ => bindings.map Binding.name
  | _ => []

/-- The parameters of a function. -/
def params : Expr → List Param
  | func params .. => params
  | _ => []

/-- What is given at a node can be written. -/
structure NodeWritable (n : Expr) : Prop where
  names : ∀ name ∈ n.ownNames, name ≠ ""
  params : ∀ p ∈ n.params, p.Writable
  annotations : ∀ t ∈ n.annotations, t ≠ .absent → t.Writable
  typeArguments : ∀ t ∈ n.typeArguments, t.Writable
  generics : ∀ g ∈ n.generics, g.Writable

end Expr

/-! ## Texts -/

theorem Tokens.list?_map_some_of_spells {cs : List Char} {ts : List Token} (h : Spells cs ts)
    (hmarks : ∀ c, .mark c ∈ ts → c ∈ ['<', ',', '>']) :
    (Tokens.ofSource (cs.map some)).list? = some ts := by
  rw [← ofBytes_eq_map_some_iff.mpr rfl]
  exact Tokens.list?_of_spells h hmarks

theorem Ty.Written.parse_of_spells {t : Ty} (ht : t.Written) {cs : List Char}
    (h : Spells cs t.tokens) : Ty.parse (cs.map some) = .ok t := by
  have hderives := ht.derives_tokens
  have hlist := Tokens.list?_map_some_of_spells h fun c => hderives.mark_mem
  exact Reader.run_start_eq_ok_iff.mpr ⟨t.tokens, hlist, hderives⟩

theorem trim_eq_self {cs : List Char} (hfirst : ∀ c ∈ cs.head?, isBlank c = false)
    (hlast : ∀ c ∈ cs.getLast?, isBlank c = false) : trim cs = cs := by
  have hdrop : ∀ {ds : List Char}, (∀ c ∈ ds.head?, isBlank c = false) → ds.dropWhile isBlank = ds := by
    intro ds h
    cases ds with
    | nil => rfl
    | cons d ds => rw [List.dropWhile_cons, h d rfl, if_neg Bool.false_ne_true]
  rw [trim, hdrop hfirst, hdrop (by rwa [List.head?_reverse]), List.reverse_reverse]

namespace Document

theorem gives_nonEmpty (what : Expected) {s : String} (h : s ≠ "") :
    Gives (nonEmpty what) (textNode s) s := by
  rw [Gives, textNode, nonEmpty, if_neg h]

theorem gives_type {t : Ty} (h : t.Writable) : Gives type (textNode t.text) t := by
  have hparse : Ty.parse (Source.ofString t.text) = .ok t := by
    rw [Source.ofString, Ty.text, String.toList_ofList]
    exact h.written.parse_of_spells (Ty.spells_chars h.written h.named)
  have htext : t.text ≠ "" := by
    intro hempty
    rw [hempty] at hparse
    cases hparse
  refine bind_eq_ok.mpr ⟨t.text, gives_nonEmpty .type htext, ?_⟩
  simp only [hparse]
  rfl

theorem gives_genericType {g : Scheme} (h : g.Writable) : Gives genericType (textNode g.text) g := by
  have hparse : Scheme.parse (Source.ofString g.text) = .ok g := by
    rw [Source.ofString, Scheme.text, String.toList_ofList]
    rcases Scheme.spells_text h.body.written h.body.named h.params h.distinct with ⟨ts, hspells, hderives⟩
    have hlist := Tokens.list?_map_some_of_spells hspells fun c => hderives.mark_mem
    exact Scheme.parse_eq_ok_iff.mpr ⟨ts, hlist, hderives⟩
  have htext : g.text ≠ "" := by
    intro hempty
    rw [hempty] at hparse
    cases hparse
  refine bind_eq_ok.mpr ⟨g.text, gives_nonEmpty .genericType htext, ?_⟩
  simp only [hparse]
  rfl

/-- A parameter is read from its name and what stands after the first colon. -/
theorem gives_param {p : Param} (h : p.Writable) (hty : p.ty ≠ .absent → p.ty.Writable) :
    Gives param (textNode p.text) p := by
  obtain ⟨name, ty⟩ := p
  have hname : ∀ c ∈ name.toList, decide (c ≠ ':') = true := by
    intro c hc
    exact decide_eq_true fun heq => h.colon (heq ▸ hc)
  have htrim : String.ofList (trim name.toList) = name := by
    rw [trim_eq_self h.first h.last, String.ofList_toList]
  have htext : Param.text ⟨name, ty⟩ ≠ "" := by
    intro hempty
    exact h.nonEmpty (String.append_eq_empty_iff.mp hempty).1
  refine bind_eq_ok.mpr ⟨_, gives_nonEmpty .parameter htext, ?_⟩
  by_cases hty' : ty = .absent
  · subst hty'
    have hsource : (Param.text ⟨name, .absent⟩).toList = name.toList := by
      rw [Param.text, annotationText, String.append_empty]
    simp only [hsource, List.takeWhile_eq_self_iff.mpr hname, List.dropWhile_eq_nil_iff.mpr hname,
      htrim, if_neg h.nonEmpty]
    rfl
  · have hwritable := hty hty'
    have hsource : (Param.text ⟨name, ty⟩).toList = name.toList ++ ':' :: ' ' :: ty.chars := by
      rw [Param.text, annotationText, String.toList_append, String.toList_append, Ty.text,
        String.toList_ofList, String.toList_ofList]
      · rfl
      · exact hty'
    -- The reader of types skips the blank after the colon.
    have hparse : Ty.parse ((' ' :: ty.chars).map some) = .ok ty :=
      hwritable.written.parse_of_spells (.gap (by decide) (Ty.spells_chars hwritable.written hwritable.named))
    simp only [hsource, List.takeWhile_append_of_pos hname, List.dropWhile_append_of_pos hname,
      List.takeWhile_cons, List.dropWhile_cons, ne_eq, not_true, decide_false, Bool.false_eq_true, if_false,
      List.append_nil, htrim, if_neg h.nonEmpty, hparse]
    rfl

theorem gives_intLiteral [y : Scalars] (hy : y.ReadsNumerals) (value : Int64) :
    Gives intLiteral (.scalar nowhere .plain "!!int" (Text.integer value.toInt)) (.int value .absent) := by
  rw [Gives, intLiteral, hy value]

/-! ## Fields -/

/-- A list has all fields of a kind of mapping in order, each written or left out. -/
structure Lists (allowed : List String) (fs : List (String × Option Node)) : Prop where
  names : fs.map Prod.fst = allowed
  distinct : allowed.Nodup

theorem Form.lists (f : Form) {fs : List (String × Option Node)}
    (h : fs.map Prod.fst = f.name :: f.extras) : Lists (f.name :: f.extras) fs :=
  ⟨h, by cases f <;> decide⟩

theorem hasField_given {fs : List (String × Option Node)} {name : String} {v : Node} :
    HasField (given fs) name v ↔ (name, some v) ∈ fs := by
  simp only [HasField, given, List.mem_filterMap, Option.map_eq_some_iff]
  constructor
  · rintro ⟨_, ⟨⟨other, _⟩, hf, v', rfl, rfl⟩, hname, rfl⟩
    cases hname
    exact hf
  · intro hf
    exact ⟨_, ⟨_, hf, v, rfl, rfl⟩, rfl, rfl⟩

theorem fieldName?_given (fs : List (String × Option Node)) :
    ((given fs).map fieldName?).Sublist ((fs.map Prod.fst).map some) := by
  induction fs with
  | nil => exact .slnil
  | cons f fs ih =>
    obtain ⟨name, _ | v⟩ := f
    · exact .cons _ ih
    · exact .cons_cons _ ih

namespace Lists

variable {allowed : List String} {fs : List (String × Option Node)} (hfs : Lists allowed fs)
include hfs

theorem fields : Fields allowed (given fs) := by
  constructor
  · intro entry hentry
    obtain ⟨f, hf, hentry⟩ := List.mem_filterMap.mp hentry
    obtain ⟨v, -, rfl⟩ := Option.map_eq_some_iff.mp hentry
    exact ⟨f.1, hfs.names ▸ List.mem_map_of_mem hf, rfl⟩
  · have hsub := fieldName?_given fs
    rw [hfs.names] at hsub
    exact hsub.nodup (hfs.distinct.map (Option.some_injective _))

/-- A field that may be left out is there if it is written. -/
theorem optional {α : Type} {P : Node → α → Prop} {absent a : α} {name : String} {v? : Option Node}
    (hmem : (name, v?) ∈ fs) (hsome : ∀ v, v? = some v → P v a) (hnone : v? = none → a = absent) :
    Optional (given fs) name P absent a := by
  cases v? with
  | some v => exact .given (hasField_given.mpr hmem) (hsome v rfl)
  | none =>
    rw [hnone rfl]
    refine .left fun v hv => ?_
    have hnodup : (fs.map Prod.fst).Nodup := hfs.names ▸ hfs.distinct
    have heq := List.inj_on_of_nodup_map hnodup hmem (hasField_given.mp hv) rfl
    cases heq

theorem optional_type {name : String} {t : Ty} (hmem : (name, typeNode? t) ∈ fs)
    (ht : t ≠ .absent → t.Writable) : Optional (given fs) name (Gives type) .absent t := by
  cases t with
  | absent => exact hfs.optional hmem (by simp [typeNode?]) fun _ => rfl
  | _ =>
    refine hfs.optional hmem (fun v hv => ?_) (by simp [typeNode?])
    cases hv
    exact gives_type (ht (by simp))

end Lists

theorem listed_map {α β : Type} {P : Node → β → Prop} {as : List α} {f : α → Node} {g : α → β}
    (h : ∀ a ∈ as, P (f a) (g a)) : Listed P (listNode (as.map f)) (as.map g) := by
  refine ⟨nowhere, _, rfl, ?_⟩
  rw [List.forall₂_map_left_iff, List.forall₂_map_right_iff]
  exact List.forall₂_same.mpr h

theorem listed_types {ts : List Ty} (h : ∀ t ∈ ts, t.Writable) :
    Listed (Gives type) (listNode (ts.map fun t => textNode t.text)) ts := by
  have hlisted := listed_map (g := id) fun t ht => gives_type (h t ht)
  rwa [List.map_id] at hlisted

theorem listed_params {params : List Param} (h : ∀ p ∈ params, p.Writable)
    (hty : ∀ p ∈ params, p.ty ≠ .absent → p.ty.Writable) :
    Listed (Gives param) (paramsNode params) params := by
  have hlisted := listed_map (g := id) fun p hp => gives_param (h p hp) (hty p hp)
  rwa [List.map_id] at hlisted

/-! ## Expressions -/

section

variable [y : Scalars]

/-- An expression is read back from its document. -/
def ReadsBack (e : Expr) : Prop := Expr.ofNode e.document = .ok e.uninferred

/-- A mapping of the fields of a form is read by the rule of the form. -/
theorem ofNode_fieldsNode (f : Form) {fs : List (String × Option Node)}
    (hnames : fs.map Prod.fst = f.name :: f.extras) {head : Node} (hhead : (f.name, some head) ∈ fs)
    {e : Expr} (h : HasForm (Gives Expr.ofNode) (given fs) head f e) :
    Expr.ofNode (fieldsNode fs) = .ok e :=
  ofNode_of_level (.mapping (f.lists hnames).fields (hasField_given.mpr hhead) h)

theorem listed_documents {es : List Expr} (h : ∀ e ∈ es, ReadsBack e) :
    Listed (Gives Expr.ofNode) (listNode (Expr.documents es)) (Expr.uninferredList es) := by
  rw [Expr.documents_eq, Expr.uninferredList_eq]
  exact listed_map h

theorem Lists.hasFunction {allowed : List String} {fs : List (String × Option Node)}
    (hfs : Lists allowed fs) {params : List Param} {result : Ty} {body : Expr} {ty : Ty}
    (hresult : ("returns", typeNode? result) ∈ fs) (hbody : ("body", some body.document) ∈ fs)
    (hnode : (Expr.func params result body ty).NodeWritable) (hread : ReadsBack body) :
    HasFunction (Gives Expr.ofNode) (given fs) (paramsNode params) params result body.uninferred := by
  have hparams : Listed (Gives param) (paramsNode params) params := by
    refine listed_params hnode.params fun p hp => ?_
    exact hnode.annotations p.ty (List.mem_append_left _ (List.mem_map_of_mem hp))
  refine .mk hparams (hfs.optional_type hresult ?_) (hasField_given.mpr hbody) hread
  exact hnode.annotations result (List.mem_append_right _ List.mem_cons_self)

theorem isBinding_document {name : String} {scheme : Option Scheme} {params : List Param} {result : Ty}
    {body : Expr} {ty : Ty} (hname : name ≠ "") (hscheme : ∀ g ∈ scheme, g.Writable)
    (hnode : (Expr.func params result body ty).NodeWritable) (hread : ReadsBack body) :
    IsBinding (Gives Expr.ofNode) (Expr.bindingDocument (.fn name scheme params result body ty))
      (Expr.uninferredBinding (.fn name scheme params result body ty)) := by
  rw [Expr.bindingDocument, Expr.uninferredBinding, fieldsNode]
  generalize hall : [_, _, _, _, _] = fs
  have hfs : Lists bindingFields fs := ⟨by rw [← hall]; rfl, by decide⟩
  have htype : Optional (given fs) "type" (fun v g => ∃ s, Gives genericType v s ∧ some s = g) none
      scheme := by
    have hmem : ("type", scheme.map fun g => textNode g.text) ∈ fs := by simp [← hall]
    refine hfs.optional hmem ?_ ?_
    · intro v hv
      obtain ⟨g, rfl, rfl⟩ := Option.map_eq_some_iff.mp hv
      exact ⟨g, gives_genericType (hscheme g rfl), rfl⟩
    · exact Option.map_eq_none_iff.mp
  exact .mk hfs.fields (hasField_given.mpr (by simp [← hall])) (gives_nonEmpty .functionName hname) htype
    (hasField_given.mpr (by simp [← hall]))
    (hfs.hasFunction (by simp [← hall]) (by simp [← hall]) hnode hread)

theorem readsBack_int (hy : y.ReadsNumerals) (value : Int64) (ty : Ty) : ReadsBack (.int value ty) := by
  rw [ReadsBack, Expr.document, Expr.uninferred]
  exact ofNode_fieldsNode .int rfl List.mem_cons_self (.int (gives_intLiteral hy value))

theorem readsBack_str (value : String) (ty : Ty) : ReadsBack (.str value ty) := by
  rw [ReadsBack, Expr.document, Expr.uninferred]
  exact ofNode_fieldsNode .str rfl List.mem_cons_self (.str rfl)

theorem readsBack_var {name : String} {typeArgs : Option (List Ty)} {ty : Ty}
    (hnode : (Expr.var name typeArgs ty).NodeWritable) : ReadsBack (.var name typeArgs ty) := by
  rw [ReadsBack, Expr.document, Expr.uninferred]
  refine ofNode_fieldsNode .var rfl List.mem_cons_self
    (.var (gives_nonEmpty .variableName (hnode.names name List.mem_cons_self)) ?_)
  refine (Form.var.lists rfl).optional (.tail _ List.mem_cons_self) ?_ Option.map_eq_none_iff.mp
  intro v hv
  obtain ⟨ts, rfl, rfl⟩ := Option.map_eq_some_iff.mp hv
  exact ⟨ts, listed_types hnode.typeArguments, rfl⟩

theorem readsBack_func {params : List Param} {result : Ty} {body : Expr} {ty : Ty}
    (hnode : (Expr.func params result body ty).NodeWritable) (hbody : ReadsBack body) :
    ReadsBack (.func params result body ty) := by
  rw [ReadsBack, Expr.document, Expr.uninferred]
  refine ofNode_fieldsNode .fn rfl List.mem_cons_self (.fn ?_)
  exact (Form.fn.lists rfl).hasFunction (by simp) (by simp) hnode hbody

theorem readsBack_call {callee : Expr} {args : List Expr} {ty : Ty} (hcallee : ReadsBack callee)
    (hargs : ∀ a ∈ args, ReadsBack a) : ReadsBack (.call callee args ty) := by
  rw [ReadsBack, Expr.document, Expr.uninferred]
  exact ofNode_fieldsNode .call rfl List.mem_cons_self
    (.call hcallee (.given (hasField_given.mpr (by simp)) (listed_documents hargs)))

/-- The body of a `let` is written unless it is missing. -/
theorem readsBack_letIn {name : String} {annot : Ty} {value body : Expr} {ty : Ty}
    (hnode : (Expr.letIn name annot value body ty).NodeWritable) (hvalue : ReadsBack value)
    (hbody : body = .absent ∨ body.isAbsent = false ∧ ReadsBack body) :
    ReadsBack (.letIn name annot value body ty) := by
  rw [ReadsBack, Expr.document, Expr.uninferred]
  generalize hall : [_, _, _, _] = fs
  have hnames : fs.map Prod.fst = Form.letIn.name :: Form.letIn.extras := by rw [← hall]; rfl
  have hfs := Form.letIn.lists hnames
  have hname : name ≠ "" := hnode.names name List.mem_cons_self
  have hannot : Optional (given fs) "type" (Gives type) .absent annot :=
    hfs.optional_type (by simp [← hall]) (hnode.annotations annot List.mem_cons_self)
  have hlast : Optional (given fs) "in" (Gives Expr.ofNode) .absent body.uninferred := by
    have hmem : ("in", if body.isAbsent then none else some body.document) ∈ fs := by simp [← hall]
    rcases hbody with rfl | ⟨hpresent, hread⟩
    · exact hfs.optional hmem (by simp [Expr.isAbsent]) fun _ => by rw [Expr.uninferred]
    · rw [hpresent, if_neg Bool.false_ne_true] at hmem
      exact .given (hasField_given.mpr hmem) hread
  exact ofNode_fieldsNode .letIn hnames (by simp [← hall, Form.name])
    (.letIn (gives_nonEmpty .variableName hname) hannot (hasField_given.mpr (by simp [← hall])) hvalue hlast)

theorem readsBack_group {bindings : List Binding} {body : Expr} {ty : Ty}
    (hnode : (Expr.group bindings body ty).NodeWritable)
    (hfn : ∀ b ∈ bindings, b.func?.isSome = true)
    (hfns : ∀ b ∈ bindings, ∀ params result body ty, b.func? = some (.func params result body ty) →
      (Expr.func params result body ty).NodeWritable ∧ ReadsBack body)
    (hbody : ReadsBack body) : ReadsBack (.group bindings body ty) := by
  have hbindings : Listed (IsBinding (Gives Expr.ofNode)) (listNode (Expr.bindingDocuments bindings))
      (Expr.uninferredBindings bindings) := by
    rw [Expr.bindingDocuments_eq, Expr.uninferredBindings_eq]
    refine listed_map fun b hb => ?_
    cases b with
    | missing name scheme => cases hfn _ hb
    | fn name scheme params result body ty =>
      have hname : name ≠ "" := hnode.names name (List.mem_map_of_mem hb)
      have hscheme : ∀ g ∈ scheme, g.Writable := by
        intro g hg
        exact hnode.generics g (List.mem_filterMap.mpr ⟨_, hb, hg⟩)
      obtain ⟨hfunc, hread⟩ := hfns _ hb _ _ _ _ rfl
      exact isBinding_document hname hscheme hfunc hread
  rw [ReadsBack, Expr.document, Expr.uninferred]
  exact ofNode_fieldsNode .group rfl List.mem_cons_self
    (.group hbindings (hasField_given.mpr (by simp)) hbody)

theorem readsBack_array {item : Ty} {items : List Expr} {ty : Ty}
    (hnode : (Expr.array item items ty).NodeWritable) (hitems : ∀ e ∈ items, ReadsBack e) :
    ReadsBack (.array item items ty) := by
  rw [ReadsBack, Expr.document, Expr.uninferred]
  refine ofNode_fieldsNode .array rfl List.mem_cons_self (.array (listed_documents hitems) ?_)
  exact (Form.array.lists rfl).optional_type (by simp) (hnode.annotations item List.mem_cons_self)

theorem readsBack_seq {effect value : Expr} {ty : Ty} (heffect : ReadsBack effect)
    (hvalue : ReadsBack value) : ReadsBack (.seq effect value ty) := by
  rw [ReadsBack, Expr.document, Expr.uninferred]
  refine ofNode_fieldsNode .seq rfl List.mem_cons_self (.seq ⟨nowhere, _, rfl, ?_⟩)
  exact .cons heffect (.cons hvalue .nil)

theorem readsBack_block {items : List Expr} {ty : Ty} (hitems : ∀ e ∈ items, ReadsBack e) :
    ReadsBack (.block items ty) := by
  rw [ReadsBack, Expr.document, Expr.uninferred]
  exact ofNode_fieldsNode .block rfl List.mem_cons_self (.block (listed_documents hitems))

/-- What can be written is read back. A function of a group is not written as an expression of its own, so
it takes part in the induction with its body too. -/
theorem readsBack (hy : y.ReadsNumerals) {e : Expr} (hformed : e.Formed)
    (hnodes : e.Every Expr.NodeWritable) :
    ReadsBack e ∧ ∀ params result body ty, e = .func params result body ty → ReadsBack body := by
  induction e with
  | absent | other => cases hformed
  | int value ty => exact ⟨readsBack_int hy value ty, by simp⟩
  | str value ty => exact ⟨readsBack_str value ty, by simp⟩
  | var name typeArgs ty => exact ⟨readsBack_var (Expr.every_var.mp hnodes), by simp⟩
  | func params result body ty ih =>
    obtain ⟨hnode, hbody'⟩ := Expr.every_func.mp hnodes
    cases hformed with
    | func hbody =>
      have hread : ReadsBack body := (ih hbody hbody').1
      refine ⟨readsBack_func hnode hread, ?_⟩
      intro _ _ _ _ heq
      cases heq
      exact hread
  | call callee args ty ihf iha =>
    obtain ⟨-, hcallee', hargs'⟩ := Expr.every_call.mp hnodes
    cases hformed with
    | call hcallee hargs =>
      refine ⟨readsBack_call (ihf hcallee hcallee').1 fun a ha => ?_, by simp⟩
      exact (iha a ha (hargs a ha) (hargs' a ha)).1
  | letIn name annot value body ty ihv ihb =>
    obtain ⟨hnode, hvalue', hbody'⟩ := Expr.every_letIn.mp hnodes
    cases hformed with
    | letAlone hvalue =>
      exact ⟨readsBack_letIn hnode (ihv hvalue hvalue').1 (.inl rfl), by simp⟩
    | letIn hvalue hbody =>
      have hread := (ihb hbody hbody').1
      exact ⟨readsBack_letIn hnode (ihv hvalue hvalue').1 (.inr ⟨hbody.isAbsent, hread⟩), by simp⟩
  | group bindings body ty ihf ihb =>
    obtain ⟨hnode, hfns', hbody'⟩ := Expr.every_group.mp hnodes
    cases hformed with
    | group hfn hfns hbody =>
      refine ⟨readsBack_group hnode hfn ?_ (ihb hbody hbody').1, by simp⟩
      intro b hb params result fnBody fnTy hfunc
      have hfunc' := hfns' b hb _ hfunc
      exact ⟨(Expr.every_func.mp hfunc').1, (ihf b hb _ hfunc (hfns b hb _ hfunc) hfunc').2 _ _ _ _ rfl⟩
  | array item items ty ih =>
    obtain ⟨hnode, hitems'⟩ := Expr.every_array.mp hnodes
    cases hformed with
    | array hitems =>
      refine ⟨readsBack_array hnode fun a ha => ?_, by simp⟩
      exact (ih a ha (hitems a ha) (hitems' a ha)).1
  | seq effect value ty ihe ihv =>
    obtain ⟨-, heffect', hvalue'⟩ := Expr.every_seq.mp hnodes
    cases hformed with
    | seq heffect hvalue =>
      exact ⟨readsBack_seq (ihe heffect heffect').1 (ihv hvalue hvalue').1, by simp⟩
  | block items ty ih =>
    obtain ⟨-, hitems'⟩ := Expr.every_block.mp hnodes
    cases hformed with
    | block hitems =>
      refine ⟨readsBack_block fun a ha => ?_, by simp⟩
      exact (ih a ha (hitems a ha) (hitems' a ha)).1

end

end Document

open Document in
/-- An expression that is whole and whose names and types can be written is read back from its document,
but for inferred types: it is the same expression if it has none. This holds with any reader of scalars
that knows decimal numerals. -/
theorem ofNode_document [y : Scalars] (hy : y.ReadsNumerals) {e : Expr} (hformed : e.Formed)
    (hnodes : e.Every Expr.NodeWritable) :
    Expr.ofNode e.document = .ok e.uninferred ∧
      (e.Every (·.ty = .absent) → Expr.ofNode e.document = .ok e) := by
  have hread : Expr.ofNode e.document = .ok e.uninferred := (readsBack hy hformed hnodes).1
  refine ⟨hread, fun hty => ?_⟩
  rw [hread, Expr.uninferred_eq_self hty]

/-- A group with a generic function and a block in which a `let` has no body. -/
theorem ofNode_document_block :
    let a : Ty := .con "A" []
    let int : Ty := .con "Int" []
    let e : Expr := .group
      [.fn "f" (some ⟨["A"], .con "Function1" [a, a]⟩) [⟨"x", a⟩] .absent (.var "x" none .absent) .absent]
      (.block [.letIn "y" int (.int (-1) .absent) .absent .absent,
        .call (.var "f" (some [int]) .absent) [.var "y" none .absent] .absent] .absent) .absent
    Scalars.standard.ReadsNumerals ∧ e.Formed ∧ e.Every Expr.NodeWritable ∧ e.Every (·.ty = .absent) ∧
      Expr.ofNode e.document = .ok e := by
  intro a int e
  have hformed : e.Formed := by
    refine .group (by simp [Binding.func?]) ?_ (.block ?_)
    · simp only [List.forall_mem_singleton, Binding.func?, Option.some.injEq, forall_eq']
      exact .func (.var ..)
    · simp only [List.forall_mem_cons]
      refine ⟨.letAlone (.int ..), .call (.var ..) ?_, by simp⟩
      exact List.forall_mem_singleton.mpr (.var ..)
  have hname : ∀ name : String, isName name.toList → (Ty.con name []).Writable := by
    intro name h
    exact ⟨.con (by simp), by simpa [Ty.Named] using h⟩
  have ha : a.Writable := hname "A" (by decide +kernel)
  have hint : int.Writable := hname "Int" (by decide +kernel)
  have hscheme : Scheme.Writable ⟨["A"], .con "Function1" [a, a]⟩ :=
    ⟨⟨.con (by simp [ha.written]), by decide +kernel⟩, by decide +kernel, by decide⟩
  have hparam : Param.Writable ⟨"x", a⟩ := ⟨by decide, by decide, by simp [isBlank], by simp [isBlank]⟩
  have hnodes : e.Every Expr.NodeWritable := by
    simp only [e, Expr.every_group, Expr.every_func, Expr.every_var, Expr.every_block, Expr.every_letIn,
      Expr.every_int, Expr.every_absent, Expr.every_call, Binding.func?, List.forall_mem_cons,
      Option.some.injEq, forall_eq']
    refine ⟨?_, ⟨⟨?_, ?_⟩, by simp⟩, ?_, ⟨?_, ?_, trivial⟩, ⟨?_, ?_, ?_, by simp⟩, by simp⟩ <;>
      constructor <;>
      simp [Expr.ownNames, Expr.params, Expr.annotations, Expr.typeArguments, Expr.generics, Binding.name,
        Binding.scheme, ha, hint, hscheme, hparam]
  have hty : e.Every (·.ty = .absent) := by
    simp [e, Expr.every_group, Expr.every_func, Expr.every_var, Expr.every_block, Expr.every_letIn,
      Expr.every_int, Expr.every_absent, Expr.every_call, Binding.func?, Expr.ty]
  have hy := Scalars.standard_readsNumerals
  exact ⟨hy, hformed, hnodes, hty, (ofNode_document hy hformed hnodes).2 hty⟩

end Polytype
