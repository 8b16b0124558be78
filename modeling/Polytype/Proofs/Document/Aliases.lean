import Mathlib
import Polytype.Proofs.Document.Comparison

/-!
# Aliases

An alias stands for its node where an expression is expected, and nowhere else. `Node.unaliased` puts the
node that is meant in the place of every alias. A document describes an expression if and only if it does
so without its aliases and none of them stands at the place of anything but an expression
(`ofNode_unaliased`).
-/

namespace Polytype

namespace Yaml.Node

mutual

/-- A tree with the nodes that are meant in place of the aliases. -/
def unaliased : Node → Node
  | scalar mark style tag value => scalar mark style tag value
  | sequence mark items => sequence mark (unaliasedList items)
  | mapping mark entries => mapping mark (unaliasedEntries entries)
  | reference _ target => unaliased target

/-- Nodes without aliases. -/
def unaliasedList : List Node → List Node
  | [] => []
  | n :: rest => unaliased n :: unaliasedList rest

/-- Entries without aliases. -/
def unaliasedEntries : List Entry → List Entry
  | [] => []
  | .mk key value :: rest => .mk (unaliased key) (unaliased value) :: unaliasedEntries rest

end

/-- An entry without aliases. -/
def unaliasedEntry (entry : Entry) : Entry := .mk entry.key.unaliased entry.value.unaliased

theorem unaliasedList_eq (items : List Node) : unaliasedList items = items.map unaliased := by
  induction items with
  | nil => rfl
  | cons n items ih => rw [unaliasedList, ih, List.map_cons]

theorem unaliasedEntries_eq (entries : List Entry) :
    unaliasedEntries entries = entries.map unaliasedEntry := by
  induction entries with
  | nil => rfl
  | cons entry entries ih =>
    obtain ⟨key, value⟩ := entry
    rw [unaliasedEntries, ih, List.map_cons]
    rfl

end Yaml.Node

namespace Document

open Polytype.Yaml (Node Entry Mark Style Scalars)

/-! ## Places of aliases -/

/-- The role of an entry's value in a mapping of a given role. -/
def Role.value (role : Role) (entry : Entry) : Role :=
  if role = expr ∨ role = binding then (fieldName? entry).elim plain ofField else plain

mutual

/-- Every alias in a node of a given role stands at the place of an expression. -/
def aliasesFit (role : Role) : Node → Bool
  | .scalar .. => true
  | .sequence _ items => aliasesFitList role.item items
  | .mapping _ entries => aliasesFitEntries role entries
  | .reference _ target => role = .expr && aliasesFit .expr target

/-- Every alias in some nodes of a given role stands at the place of an expression. -/
def aliasesFitList (role : Role) : List Node → Bool
  | [] => true
  | n :: rest => aliasesFit role n && aliasesFitList role rest

/-- Every alias in the entries of a mapping of a given role stands at the place of an expression. -/
def aliasesFitEntries (role : Role) : List Entry → Bool
  | [] => true
  | .mk key value :: rest =>
    aliasesFit .plain key && aliasesFit (role.value (.mk key value)) value && aliasesFitEntries role rest

end

theorem aliasesFit_scalar (role : Role) (mark : Mark) (style : Style) (tag value : String) :
    aliasesFit role (.scalar mark style tag value) := by
  rw [aliasesFit]

theorem aliasesFitList_iff {role : Role} {items : List Node} :
    aliasesFitList role items ↔ ∀ n ∈ items, aliasesFit role n := by
  induction items with
  | nil => simp [aliasesFitList]
  | cons n items ih => simp [aliasesFitList, ih]

theorem aliasesFitEntries_iff {role : Role} {entries : List Entry} :
    aliasesFitEntries role entries ↔ ∀ entry ∈ entries,
      aliasesFit .plain entry.key ∧ aliasesFit (role.value entry) entry.value := by
  induction entries with
  | nil => simp [aliasesFitEntries]
  | cons entry entries ih =>
    obtain ⟨key, value⟩ := entry
    simp [aliasesFitEntries, ih, Entry.key, Entry.value]

/-! ## Without aliases as much is read -/

/-- A tree and the tree without aliases. -/
def Unaliases (_ : Role) (n n' : Node) : Prop := n' = n.unaliased

theorem fieldName?_unaliasedEntry {entry : Entry} {name : String} (h : fieldName? entry = some name) :
    fieldName? (Node.unaliasedEntry entry) = some name := by
  obtain ⟨key, value⟩ := entry
  cases key with
  | scalar mark style tag text =>
    rw [Node.unaliasedEntry, Entry.key, Node.unaliased]
    exact h
  | _ => cases h

theorem Unaliases.corresponds (entries : List Entry) :
    Corresponds Unaliases entries (entries.map Node.unaliasedEntry) := by
  refine .of_perm (.refl entries) (List.forall₂_map_right_iff.mpr (List.forall₂_same.mpr ?_))
  exact fun entry _ name hname => ⟨fieldName?_unaliasedEntry hname, rfl⟩

theorem Unaliases.comparison : Comparison Unaliases where
  scalar := by
    rintro role mark style tag value _ - rfl
    exact ⟨mark, by rw [Node.unaliased]⟩
  sequence := by
    rintro role mark items _ - rfl
    refine ⟨mark, _, by rw [Node.unaliased, Node.unaliasedList_eq], ?_⟩
    exact List.forall₂_map_right_iff.mpr (List.forall₂_same.mpr fun n _ => rfl)
  mapping := by
    rintro mark entries _ rfl
    exact ⟨mark, _, by rw [Node.unaliased, Node.unaliasedEntries_eq], corresponds entries⟩

theorem unaliased_of_readTo [Scalars] {depth : Nat} {n : Node} {e : Expr} (h : readTo depth n = .ok e) :
    Expr.ofNode n.unaliased = .ok e := by
  induction depth generalizing n e with
  | zero => cases h
  | succ depth ih =>
    have hcarries : Carries Unaliases .expr (Gives (readTo depth)) (Gives Expr.ofNode) := by
      rintro m _ x rfl hx
      exact ih hx
    have hlevel := level_eq_ok_iff.mp h
    cases n with
    | scalar mark style tag value =>
      rw [Node.unaliased]
      exact ofNode_of_level (hlevel.compare Unaliases.comparison hcarries .scalar)
    | sequence mark items => cases h
    | mapping mark entries =>
      rw [Node.unaliased, Node.unaliasedEntries_eq]
      exact ofNode_of_level
        (hlevel.compare Unaliases.comparison hcarries (.mapping (Unaliases.corresponds entries)))
    | reference mark target =>
      rw [Node.unaliased]
      exact ih h

/-! ## With aliases at the places of expressions no less is read -/

/-- A tree without aliases and a tree that has them at the places of expressions only. -/
def Aliases (role : Role) (n n' : Node) : Prop := n = n'.unaliased ∧ aliasesFit role n'

theorem Aliases.corresponds {role : Role} (hrole : role = .expr ∨ role = .binding) {entries : List Entry}
    (h : aliasesFitEntries role entries) :
    Corresponds Aliases (entries.map Node.unaliasedEntry) entries := by
  rw [aliasesFitEntries_iff] at h
  refine .of_perm (.refl _) (List.forall₂_map_left_iff.mpr (List.forall₂_same.mpr ?_))
  rintro ⟨key, value⟩ hentry name hname
  obtain ⟨hkey, hvalue⟩ := h _ hentry
  cases key with
  | scalar mark style tag text =>
    rw [Node.unaliasedEntry, Entry.key, Node.unaliased] at hname
    cases hname
    rw [Role.value, if_pos hrole] at hvalue
    exact ⟨rfl, rfl, hvalue⟩
  | reference mark target =>
    rw [Entry.key, aliasesFit] at hkey
    cases hkey
  | _ =>
    rw [Node.unaliasedEntry, Entry.key, Node.unaliased] at hname
    cases hname

theorem Aliases.comparison : Comparison Aliases where
  scalar := by
    rintro role mark style tag value n' hrole ⟨heq, hfit⟩
    cases n' with
    | reference mark' target => simp [aliasesFit, hrole] at hfit
    | scalar =>
      rw [Node.unaliased] at heq
      exact ⟨_, heq.symm⟩
    | _ =>
      rw [Node.unaliased] at heq
      cases heq
  sequence := by
    rintro role mark items n' hrole ⟨heq, hfit⟩
    cases n' with
    | reference mark' target => simp [aliasesFit, hrole] at hfit
    | sequence mark' items' =>
      rw [Node.unaliased, Node.unaliasedList_eq] at heq
      cases heq
      rw [aliasesFit, aliasesFitList_iff] at hfit
      exact ⟨mark, items', rfl, List.forall₂_map_left_iff.mpr
        (List.forall₂_same.mpr fun n hn => ⟨rfl, hfit n hn⟩)⟩
    | _ =>
      rw [Node.unaliased] at heq
      cases heq
  mapping := by
    rintro mark entries n' ⟨heq, hfit⟩
    cases n' with
    | reference mark' target => simp [aliasesFit] at hfit
    | mapping mark' entries' =>
      rw [Node.unaliased, Node.unaliasedEntries_eq] at heq
      cases heq
      rw [aliasesFit] at hfit
      exact ⟨mark, entries', rfl, corresponds (.inr rfl) hfit⟩
    | _ =>
      rw [Node.unaliased] at heq
      cases heq

/-- The node at the end of a chain of aliases. -/
theorem exists_end [Scalars] : ∀ n : Node, aliasesFit .expr n →
    ∃ m, (∀ mark target, m ≠ .reference mark target) ∧ m.unaliased = n.unaliased ∧
      aliasesFit .expr m ∧ ∀ e, Expr.ofNode m = .ok e → Expr.ofNode n = .ok e
  | .scalar .., hfit => ⟨_, by simp, rfl, hfit, fun _ h => h⟩
  | .sequence .., hfit => ⟨_, by simp, rfl, hfit, fun _ h => h⟩
  | .mapping .., hfit => ⟨_, by simp, rfl, hfit, fun _ h => h⟩
  | .reference mark target, hfit => by
    rw [aliasesFit, Bool.and_eq_true] at hfit
    obtain ⟨m, hm, hsame, hfit, hread⟩ := exists_end target hfit.2
    exact ⟨m, hm, by rw [hsame, Node.unaliased], hfit, fun e h => ofNode_of_level (.reference (hread e h))⟩

theorem aliased_of_readTo [Scalars] {depth : Nat} {n : Node} {e : Expr} (hfit : aliasesFit .expr n)
    (h : readTo depth n.unaliased = .ok e) : Expr.ofNode n = .ok e := by
  induction depth generalizing n e with
  | zero => cases h
  | succ depth ih =>
    obtain ⟨m, hm, hsame, hfit, hread⟩ := exists_end n hfit
    rw [← hsame] at h
    apply hread
    have hcarries : Carries Aliases .expr (Gives (readTo depth)) (Gives Expr.ofNode) := by
      rintro _ m x ⟨rfl, hm⟩ hx
      exact ih hm hx
    have hlevel := level_eq_ok_iff.mp h
    cases m with
    | scalar mark style tag value =>
      rw [Node.unaliased] at hlevel
      exact ofNode_of_level (hlevel.compare Aliases.comparison hcarries .scalar)
    | sequence mark items =>
      rw [Node.unaliased] at hlevel
      cases hlevel
    | mapping mark entries =>
      rw [Node.unaliased, Node.unaliasedEntries_eq] at hlevel
      rw [aliasesFit] at hfit
      exact ofNode_of_level (hlevel.compare Aliases.comparison hcarries
        (.mapping (Aliases.corresponds (.inl rfl) hfit)))
    | reference mark target => exact absurd rfl (hm mark target)

/-! ## What is read has aliases at the places of expressions only -/

theorem ReadsText.aliasesFit {α : Type} {f : Node → Result α} (hf : ReadsText f) {n : Node} {a : α}
    (h : Gives f n a) (role : Role) : aliasesFit role n := by
  obtain ⟨mark, style, tag, value, rfl, -⟩ := hf n a h
  exact aliasesFit_scalar ..

theorem Listed.aliasesFit {α : Type} {P : Node → α → Prop} {n : Node} {as : List α} (h : Listed P n as)
    (role : Role) (hP : ∀ m a, P m a → aliasesFit role.item m) : aliasesFit role n := by
  obtain ⟨mark, items, rfl, h⟩ := h
  rw [Document.aliasesFit, aliasesFitList_iff]
  intro m hm
  obtain ⟨a, -, ha⟩ := exists_mem_right h hm
  exact hP m a ha

section

variable {entries : List Entry} {allowed : List String} (hallowed : Fields allowed entries)
include hallowed

theorem Fields.value_eq {name : String} {v v' : Node} (h : HasField entries name v)
    (h' : HasField entries name v') : v = v' := by
  obtain ⟨fs, hfs⟩ := hallowed.exists_fields
  rw [← value?_eq_some_iff hfs] at h h'
  exact Option.some.inj (h.symm.trans h')

theorem Fields.name_mem {name : String} {v : Node} (h : HasField entries name v) : name ∈ allowed := by
  obtain ⟨entry, hentry, hname, -⟩ := h
  obtain ⟨other, hother, hname'⟩ := hallowed.named entry hentry
  cases hname.symm.trans hname'
  exact hother

theorem Optional.of_hasField {α : Type} {name : String} {P : Node → α → Prop} {absent a : α}
    (h : Optional entries name P absent a) {v : Node} (hv : HasField entries name v) : ∃ a, P v a := by
  cases h with
  | given hv' ha => exact ⟨_, hallowed.value_eq hv hv' ▸ ha⟩
  | left hnone => exact absurd hv (hnone v)

/-- Aliases fit in a mapping if they fit in each field. -/
theorem Fields.aliasesFit {role : Role} (hrole : role = .expr ∨ role = .binding)
    (h : ∀ name v, HasField entries name v → aliasesFit (.ofField name) v) :
    aliasesFitEntries role entries := by
  rw [aliasesFitEntries_iff]
  intro entry hentry
  obtain ⟨name, -, hname⟩ := hallowed.named entry hentry
  obtain ⟨f, hf⟩ := exists_isField hname
  refine ⟨?_, ?_⟩
  · obtain ⟨style, tag, rfl⟩ := hf
    exact aliasesFit_scalar ..
  · rw [Role.value, if_pos hrole, hname]
    exact h name _ ⟨entry, hentry, hname, rfl⟩

end

section

variable {R : Node → Expr → Prop} (hR : ∀ m x, R m x → aliasesFit .expr m) {entries : List Entry}
include hR

theorem HasFunction.aliasesFit {allowed : List String} (hallowed : Fields allowed entries)
    {head : Node} {params : List Param} {result : Ty} {body : Expr}
    (h : HasFunction R entries head params result body) :
    aliasesFit .plain head ∧ (∀ v, HasField entries "returns" v → aliasesFit .plain v) ∧
      ∀ v, HasField entries "body" v → aliasesFit .expr v := by
  obtain ⟨hparams, hresult, hbody, hread⟩ := h
  refine ⟨hparams.aliasesFit .plain fun m a ha => readsText_param.aliasesFit ha _, fun v hv => ?_,
    fun v hv => ?_⟩
  · obtain ⟨t, ht⟩ := hresult.of_hasField hallowed hv
    exact readsText_type.aliasesFit ht _
  · rw [hallowed.value_eq hv hbody]
    exact hR _ _ hread

theorem IsBinding.aliasesFit {n : Node} {b : Binding} (h : IsBinding R n b) : aliasesFit .binding n := by
  obtain ⟨hallowed, hname, hread, hscheme, hfn, hfunction⟩ := h
  rw [Document.aliasesFit]
  refine hallowed.aliasesFit (.inr rfl) fun name v hv => ?_
  obtain ⟨hhead, hreturns, hbody⟩ := hfunction.aliasesFit hR hallowed
  have hmem := hallowed.name_mem hv
  simp only [bindingFields, List.mem_cons, List.not_mem_nil, or_false] at hmem
  rcases hmem with rfl | rfl | rfl | rfl | rfl
  · rw [hallowed.value_eq hv hname]
    exact (readsText_nonEmpty _).aliasesFit hread _
  · obtain ⟨g, s, hs, -⟩ := hscheme.of_hasField hallowed hv
    exact readsText_genericType.aliasesFit hs _
  · rw [hallowed.value_eq hv hfn]
    exact hhead
  · exact hreturns v hv
  · exact hbody v hv

section

variable [Scalars] {f : Form} {head : Node} {e : Expr} (hallowed : Fields (f.name :: f.extras) entries)
  (h : HasForm R entries head f e)
include hallowed h

/-- Aliases fit in the field that shows the form. -/
theorem HasForm.aliasesFit_head : aliasesFit (.ofField f.name) head := by
  cases h with
  | int h => exact readsText_intLiteral.aliasesFit h _
  | str h => exact readsText_strLiteral.aliasesFit h _
  | var h | letIn h => exact (readsText_nonEmpty _).aliasesFit h _
  | fn h => exact (h.aliasesFit hR hallowed).1
  | call h => exact hR _ _ h
  | array h | seq h | block h => exact h.aliasesFit .exprs hR
  | group h => exact h.aliasesFit .bindings fun m b hb => hb.aliasesFit hR

/-- Aliases fit in the other fields that the form has. -/
theorem HasForm.aliasesFit_extra {name : String} (hextra : name ∈ f.extras) {v : Node}
    (hv : HasField entries name v) : aliasesFit (.ofField name) v := by
  cases h with
  | int | str | seq | block => simp [Form.extras] at hextra
  | var _ htypes =>
    obtain rfl := List.mem_singleton.mp hextra
    obtain ⟨_, ts, hts, -⟩ := htypes.of_hasField hallowed hv
    exact hts.aliasesFit .plain fun m t ht => readsText_type.aliasesFit ht _
  | fn h =>
    obtain ⟨-, hreturns, hbody⟩ := h.aliasesFit hR hallowed
    simp only [Form.extras, List.mem_cons, List.not_mem_nil, or_false] at hextra
    rcases hextra with rfl | rfl
    · exact hreturns v hv
    · exact hbody v hv
  | call _ hargs =>
    obtain rfl := List.mem_singleton.mp hextra
    obtain ⟨args, hargs⟩ := hargs.of_hasField hallowed hv
    exact hargs.aliasesFit .exprs hR
  | letIn _ htype hvalue hread hbody =>
    simp only [Form.extras, List.mem_cons, List.not_mem_nil, or_false] at hextra
    rcases hextra with rfl | rfl | rfl
    · obtain ⟨t, ht⟩ := htype.of_hasField hallowed hv
      exact readsText_type.aliasesFit ht _
    · rw [hallowed.value_eq hv hvalue]
      exact hR _ _ hread
    · obtain ⟨body, hbody⟩ := hbody.of_hasField hallowed hv
      exact hR _ _ hbody
  | array _ hof =>
    obtain rfl := List.mem_singleton.mp hextra
    obtain ⟨t, ht⟩ := hof.of_hasField hallowed hv
    exact readsText_type.aliasesFit ht _
  | group _ hbody hread =>
    obtain rfl := List.mem_singleton.mp hextra
    rw [hallowed.value_eq hv hbody]
    exact hR _ _ hread

end

theorem Level.aliasesFit [Scalars] {n : Node} {e : Expr} (h : Level R n e) : aliasesFit .expr n := by
  cases h with
  | reference h =>
    rw [Document.aliasesFit]
    exact hR _ _ h
  | scalar h => exact aliasesFit_scalar ..
  | mapping hallowed hhead h =>
    rw [Document.aliasesFit]
    refine hallowed.aliasesFit (.inl rfl) fun name v hv => ?_
    rcases List.mem_cons.mp (hallowed.name_mem hv) with rfl | hextra
    · rw [hallowed.value_eq hv hhead]
      exact h.aliasesFit_head hR hallowed
    · exact h.aliasesFit_extra hR hallowed hextra hv

end

theorem aliasesFit_of_readTo [Scalars] {depth : Nat} {n : Node} {e : Expr} (h : readTo depth n = .ok e) :
    aliasesFit .expr n := by
  induction depth generalizing n e with
  | zero => cases h
  | succ depth ih => exact (level_eq_ok_iff.mp h).aliasesFit fun m x hx => ih hx

end Document

open Document in
/-- A tree is read if and only if the tree without its aliases is and every alias stands at the place of an
expression; what is read is then the same. -/
theorem ofNode_unaliased [Yaml.Scalars] (n : Yaml.Node) (e : Expr) :
    Expr.ofNode n = .ok e ↔ Expr.ofNode n.unaliased = .ok e ∧ aliasesFit .expr n := by
  constructor
  · intro h
    exact ⟨unaliased_of_readTo h, aliasesFit_of_readTo h⟩
  · rintro ⟨h, hfit⟩
    exact aliased_of_readTo hfit h

end Polytype
