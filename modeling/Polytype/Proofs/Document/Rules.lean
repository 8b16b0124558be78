import Mathlib
import Polytype.Proofs.Document.Decoding

/-!
# The rules of documents

`Level R n e` says rule by rule which expression `e` a node `n` describes, where `R` says the same of the
nodes below it. The reader follows exactly these rules (`level_eq_ok_iff`), and so does the reading of a
whole tree all the way down (`ofNode_eq_ok_iff`). Whatever else is said about documents is proved
from the rules.

A mapping is looked at as a set of fields: no rule asks for their order.
-/

namespace Polytype

namespace Document

open Polytype.Yaml (Node Entry Mark Scalars)

/-! ## Rules -/

/-- The name of the field that an entry is, if its key is a text. -/
def fieldName? : Entry → Option String
  | .mk (.scalar _ _ _ name) _ => some name
  | _ => none

/-- A mapping has a field with a value. -/
def HasField (entries : List Entry) (name : String) (v : Node) : Prop :=
  ∃ entry ∈ entries, fieldName? entry = some name ∧ entry.value = v

/-- A mapping has only fields, whose names are different and all allowed. -/
structure Fields (allowed : List String) (entries : List Entry) : Prop where
  named : ∀ entry ∈ entries, ∃ name ∈ allowed, fieldName? entry = some name
  distinct : (entries.map fieldName?).Nodup

/-- What a reader gives for a node. -/
def Gives {α : Type} (read : Node → Result α) (n : Node) (a : α) : Prop := read n = .ok a

section

variable {α : Type} (R : Node → Expr → Prop) (entries : List Entry)

/-- A list, with what each of its items is. -/
def Listed (P : Node → α → Prop) (n : Node) (as : List α) : Prop :=
  ∃ mark items, n = .sequence mark items ∧ List.Forall₂ P items as

/-- A field that may be left out. -/
inductive Optional (name : String) (P : Node → α → Prop) (absent : α) : α → Prop
  | given {v : Node} {a : α} : HasField entries name v → P v a → Optional name P absent a
  | left : (∀ v, ¬ HasField entries name v) → Optional name P absent absent

/-- The parts of a function: its parameters, the type of its result, and its body. -/
inductive HasFunction (head : Node) : List Param → Ty → Expr → Prop
  | mk {params : List Param} {result : Ty} {v : Node} {body : Expr} :
      Listed (Gives param) head params →
      Optional entries "returns" (Gives type) .absent result →
      HasField entries "body" v → R v body → HasFunction head params result body

/-- A function of a group. -/
inductive IsBinding : Node → Binding → Prop
  | mk {mark : Mark} {entries : List Entry} {n head : Node} {name : String} {scheme : Option Scheme}
      {params : List Param} {result : Ty} {body : Expr} :
      Fields bindingFields entries →
      HasField entries "name" n → Gives (nonEmpty .functionName) n name →
      Optional entries "type" (fun v g => ∃ s, Gives genericType v s ∧ some s = g) none scheme →
      HasField entries "fn" head → HasFunction R entries head params result body →
      IsBinding (.mapping mark entries) (.fn name scheme params result body .absent)

variable [Scalars]

/-- The expression that the fields of a mapping describe in a form; `head` is the value of the field that
shows the form. -/
inductive HasForm (head : Node) : Form → Expr → Prop
  | int {e : Expr} : Gives intLiteral head e → HasForm head .int e
  | str {e : Expr} : Gives strLiteral head e → HasForm head .str e
  | var {name : String} {args : Option (List Ty)} :
      Gives (nonEmpty .variableName) head name →
      Optional entries "types" (fun v a => ∃ ts, Listed (Gives type) v ts ∧ some ts = a) none args →
      HasForm head .var (.var name args .absent)
  | fn {params : List Param} {result : Ty} {body : Expr} :
      HasFunction R entries head params result body →
      HasForm head .fn (.func params result body .absent)
  | call {callee : Expr} {args : List Expr} :
      R head callee → Optional entries "args" (Listed R) [] args →
      HasForm head .call (.call callee args .absent)
  | letIn {name : String} {annot : Ty} {v : Node} {value body : Expr} :
      Gives (nonEmpty .variableName) head name →
      Optional entries "type" (Gives type) .absent annot →
      HasField entries "value" v → R v value → Optional entries "in" R .absent body →
      HasForm head .letIn (.letIn name annot value body .absent)
  | array {item : Ty} {items : List Expr} :
      Listed R head items → Optional entries "of" (Gives type) .absent item →
      HasForm head .array (.array item items .absent)
  | group {bindings : List Binding} {v : Node} {body : Expr} :
      Listed (IsBinding R) head bindings → HasField entries "in" v → R v body →
      HasForm head .group (.group bindings body .absent)
  | seq {effect value : Expr} :
      Listed R head [effect, value] → HasForm head .seq (.seq effect value .absent)
  | block {items : List Expr} : Listed R head items → HasForm head .block (.block items .absent)

/-- The expression that a node describes. -/
inductive Level : Node → Expr → Prop
  | reference {mark : Mark} {target : Node} {e : Expr} : R target e → Level (.reference mark target) e
  | scalar {mark : Mark} {style : Yaml.Style} {tag value : String} {e : Expr} :
      scalar mark style tag value = .ok e → Level (.scalar mark style tag value) e
  | mapping {mark : Mark} {entries : List Entry} {f : Form} {head : Node} {e : Expr} :
      Fields (f.name :: f.extras) entries → HasField entries f.name head →
      HasForm R entries head f e → Level (.mapping mark entries) e

end

/-! ## Fields -/

/-- An entry that is a field. -/
def IsField (entry : Entry) (f : Field) : Prop :=
  ∃ style tag, entry = .mk (.scalar f.mark style tag f.name) f.value

theorem fieldsAfter_eq_ok_iff {before : List Field} {entries : List Entry} {fs : List Field} :
    fieldsAfter before entries = .ok fs ↔ ∃ after, fs = before.reverse ++ after ∧
      List.Forall₂ IsField entries after ∧ (after.map Field.name).Nodup ∧
      ∀ f ∈ after, ∀ b ∈ before, b.name ≠ f.name := by
  fun_induction fieldsAfter before entries generalizing fs with
  | case1 before => simp [eq_comm]
  | case2 before mark style tag name value rest hdup =>
    refine iff_of_false (by simp) ?_
    rintro ⟨after, -, hfields, -, hnew⟩
    obtain ⟨f, after, hf, -, rfl⟩ := List.forall₂_cons_left_iff.mp hfields
    obtain ⟨_, _, heq⟩ := hf
    cases heq
    obtain ⟨b, hb, hname⟩ := List.any_eq_true.mp hdup
    exact hnew f List.mem_cons_self b hb (of_decide_eq_true hname)
  | case3 before mark style tag name value rest hfresh ih =>
    have hfresh : ∀ b ∈ before, b.name ≠ name := by simpa using hfresh
    rw [ih]
    constructor
    · rintro ⟨after, rfl, hfields, hnodup, hnew⟩
      refine ⟨⟨name, mark, value⟩ :: after, by simp, .cons ⟨style, tag, rfl⟩ hfields, ?_, ?_⟩
      · simp only [List.map_cons, List.nodup_cons, List.mem_map, not_exists, not_and]
        exact ⟨fun f hf => Ne.symm (hnew f hf _ List.mem_cons_self), hnodup⟩
      · rw [List.forall_mem_cons]
        exact ⟨hfresh, fun f hf b hb => hnew f hf b (List.mem_cons_of_mem _ hb)⟩
    · rintro ⟨after, rfl, hfields, hnodup, hnew⟩
      obtain ⟨f, after, ⟨_, _, heq⟩, hrest, rfl⟩ := List.forall₂_cons_left_iff.mp hfields
      cases heq
      simp only [List.map_cons, List.nodup_cons, List.mem_map, not_exists, not_and] at hnodup
      rw [List.forall_mem_cons] at hnew
      refine ⟨after, by simp, hrest, hnodup.2, fun g hg => ?_⟩
      rw [List.forall_mem_cons]
      exact ⟨Ne.symm (hnodup.1 g hg), hnew.2 g hg⟩
  | case4 before key value rest hkey =>
    refine iff_of_false (by simp [refuse]) ?_
    rintro ⟨after, -, hfields, -⟩
    obtain ⟨f, after, ⟨style, tag, heq⟩, -⟩ := List.forall₂_cons_left_iff.mp hfields
    cases heq
    exact hkey _ _ _ _ rfl

theorem fields_eq_ok_iff {entries : List Entry} {fs : List Field} :
    fields entries = .ok fs ↔
      List.Forall₂ IsField entries fs ∧ (fs.map Field.name).Nodup := by
  simp [fields, fieldsAfter_eq_ok_iff]

theorem exists_isField {entry : Entry} {name : String} (h : fieldName? entry = some name) :
    ∃ f, IsField entry f := by
  obtain ⟨key, value⟩ := entry
  cases key with
  | scalar mark style tag text => exact ⟨⟨text, mark, value⟩, style, tag, rfl⟩
  | _ => cases h

theorem IsField.fieldName? {entry : Entry} {f : Field} (h : IsField entry f) :
    fieldName? entry = some f.name ∧ entry.value = f.value := by
  obtain ⟨style, tag, rfl⟩ := h
  exact ⟨rfl, rfl⟩

theorem map_fieldName? {entries : List Entry} {fs : List Field} (h : List.Forall₂ IsField entries fs) :
    entries.map fieldName? = (fs.map Field.name).map some := by
  induction h with
  | nil => rfl
  | cons hf _ ih => rw [List.map_cons, ih, hf.fieldName?.1, List.map_cons, List.map_cons]

/-- Entries with different names can be read as fields. -/
theorem exists_fields {entries : List Entry}
    (hnamed : ∀ entry ∈ entries, ∃ name, fieldName? entry = some name)
    (hdistinct : (entries.map fieldName?).Nodup) : ∃ fs, fields entries = .ok fs := by
  suffices h : ∃ fs, List.Forall₂ IsField entries fs by
    obtain ⟨fs, hfs⟩ := h
    refine ⟨fs, fields_eq_ok_iff.mpr ⟨hfs, ?_⟩⟩
    rw [map_fieldName? hfs] at hdistinct
    exact hdistinct.of_map
  clear hdistinct
  induction entries with
  | nil => exact ⟨[], .nil⟩
  | cons entry entries ih =>
    rw [List.forall_mem_cons] at hnamed
    obtain ⟨name, hname⟩ := hnamed.1
    obtain ⟨f, hf⟩ := exists_isField hname
    obtain ⟨fs, hfs⟩ := ih hnamed.2
    exact ⟨f :: fs, .cons hf hfs⟩

theorem Fields.exists_fields {allowed : List String} {entries : List Entry}
    (h : Fields allowed entries) : ∃ fs, fields entries = .ok fs := by
  refine Document.exists_fields (fun entry hentry => ?_) h.distinct
  obtain ⟨name, -, hname⟩ := h.named entry hentry
  exact ⟨name, hname⟩

section

variable {entries : List Entry} {fs : List Field} (hfs : fields entries = .ok fs)
include hfs

theorem hasField_iff_mem {name : String} {v : Node} :
    HasField entries name v ↔ ∃ f ∈ fs, f.name = name ∧ f.value = v := by
  have h := (fields_eq_ok_iff.mp hfs).1
  clear hfs
  induction h with
  | nil => simp [HasField]
  | cons hf _ ih =>
    have hfield := hf.fieldName?
    simp only [HasField, List.exists_mem_cons_iff, hfield.1, hfield.2, Option.some.injEq]
    exact or_congr Iff.rfl ih

/-- The value of a field is what the mapping has under its name. -/
theorem value?_eq_some_iff {name : String} {v : Node} :
    value? fs name = some v ↔ HasField entries name v := by
  rw [hasField_iff_mem hfs]
  have hnodup := (fields_eq_ok_iff.mp hfs).2
  rw [value?, Option.map_eq_some_iff]
  constructor
  · rintro ⟨f, hf, rfl⟩
    exact ⟨f, List.mem_of_find?_eq_some hf, by simpa using List.find?_some hf, rfl⟩
  · rintro ⟨f, hf, rfl, rfl⟩
    refine ⟨f, ?_, rfl⟩
    -- Some field of this name is found, and there is only one.
    cases hfind : fs.find? (·.name = f.name) with
    | none => simpa using List.find?_eq_none.mp hfind f hf
    | some g =>
      have hg : g.name = f.name := by simpa using List.find?_some hfind
      exact congrArg some (List.inj_on_of_nodup_map hnodup (List.mem_of_find?_eq_some hfind) hf hg)

theorem value?_eq_none_iff {name : String} :
    value? fs name = none ↔ ∀ v, ¬ HasField entries name v := by
  simp only [← value?_eq_some_iff hfs]
  exact Option.eq_none_iff_forall_ne_some

theorem fields_iff_mem {allowed : List String} :
    Fields allowed entries ↔ ∀ f ∈ fs, f.name ∈ allowed := by
  obtain ⟨hfields, hnodup⟩ := fields_eq_ok_iff.mp hfs
  have hnames := map_fieldName? hfields
  have hnamed : (∀ entry ∈ entries, ∃ name ∈ allowed, fieldName? entry = some name) ↔
      ∀ f ∈ fs, f.name ∈ allowed := by
    rw [← List.forall_mem_map (P := fun x => ∃ name ∈ allowed, x = some name), hnames]
    simp
  rw [← hnamed]
  refine ⟨Fields.named, fun h => ⟨h, ?_⟩⟩
  rw [hnames]
  exact hnodup.map (Option.some_injective _)

theorem onlyFields_eq_ok_iff {allowed : List String} {cause : String → Cause} {u : Unit} :
    onlyFields allowed cause fs = .ok u ↔ Fields allowed entries := by
  rw [fields_iff_mem hfs, onlyFields]
  cases hfind : fs.find? fun f => !allowed.contains f.name with
  | none => simpa using List.find?_eq_none.mp hfind
  | some f =>
    have hf : f.name ∉ allowed := by simpa using List.find?_some hfind
    exact iff_of_false (by simp) fun h => hf (h f (List.mem_of_find?_eq_some hfind))

end

namespace Form

theorem ofName?_name (f : Form) : ofName? f.name = some f := by
  cases f <;> decide

theorem name_of_ofName? {name : String} {f : Form} (h : ofName? name = some f) : f.name = name := by
  simpa using List.find?_some h

/-- No other field of a form shows a form. -/
theorem ofName?_extras {f : Form} {name : String} (h : name ∈ f.extras) : ofName? name = none := by
  revert name
  cases f <;> decide

end Form

section

variable {entries : List Entry} {fs : List Field} (hfs : fields entries = .ok fs) {whole head : Node}
  {f : Form}
include hfs

theorem hasField_of_form (h : form whole fs = .ok (f, head)) : HasField entries f.name head := by
  rw [form] at h
  split at h
  · cases h
  · rename_i found hfound
    cases h
    have hmem : (f, head) ∈ fs.filterMap fun f => (Form.ofName? f.name).map (·, f.value) := by
      rw [hfound]
      exact List.mem_cons_self
    obtain ⟨g, hg, hform⟩ := List.mem_filterMap.mp hmem
    obtain ⟨f', hf', heq⟩ := Option.map_eq_some_iff.mp hform
    cases heq
    exact (hasField_iff_mem hfs).mpr ⟨g, hg, (Form.name_of_ofName? hf').symm, rfl⟩
  · cases h

/-- A field that shows a form, beside fields that this form may have, is the only one to show one. -/
theorem form_of_hasField (hallowed : Fields (f.name :: f.extras) entries)
    (hhead : HasField entries f.name head) : form whole fs = .ok (f, head) := by
  have hnodup := (fields_eq_ok_iff.mp hfs).2
  obtain ⟨g, hg, hname, rfl⟩ := (hasField_iff_mem hfs).mp hhead
  obtain ⟨pre, post, rfl⟩ := List.append_of_mem hg
  have hother : ∀ k ∈ pre ++ post, (Form.ofName? k.name).map (·, k.value) = none := by
    intro k hk
    have hne : k.name ≠ f.name := by
      rw [List.map_append, List.map_cons, List.nodup_middle, List.nodup_cons, ← List.map_append] at hnodup
      intro h
      exact hnodup.1 (hname.trans h.symm ▸ List.mem_map_of_mem hk)
    have hsub : pre ++ post ⊆ pre ++ g :: post := by simp
    have hmem := (fields_iff_mem hfs).mp hallowed k (hsub hk)
    rw [Form.ofName?_extras (List.mem_of_ne_of_mem hne hmem), Option.map_none]
  rw [List.forall_mem_append] at hother
  rw [form, List.filterMap_append, List.filterMap_cons, hname, Form.ofName?_name,
    List.filterMap_eq_nil_iff.mpr hother.1, List.filterMap_eq_nil_iff.mpr hother.2]
  rfl

end

/-! ## Parts -/

section

variable {α : Type}

theorem mapM_eq_ok_iff {f : Node → Result α} {ns : List Node} {as : List α} :
    ns.mapM f = .ok as ↔ List.Forall₂ (Gives f) ns as := by
  induction ns generalizing as with
  | nil => simp [pure, Except.pure, eq_comm]
  | cons n ns ih =>
    rw [List.mapM_cons, bind_eq_ok, List.forall₂_cons_left_iff]
    constructor
    · rintro ⟨a, ha, h⟩
      obtain ⟨rest, hrest, h⟩ := bind_eq_ok.mp h
      exact ⟨a, rest, ha, ih.mp hrest, (pure_ok.mp h).symm⟩
    · rintro ⟨a, rest, ha, hrest, rfl⟩
      exact ⟨a, ha, bind_eq_ok.mpr ⟨rest, ih.mpr hrest, rfl⟩⟩

theorem items_eq_ok_iff {what : Expected} {n : Node} {ns : List Node} :
    items what n = .ok ns ↔ ∃ mark, n = .sequence mark ns := by
  cases n with
  | sequence mark ms => simp [items]
  | _ => simp [items, refuse]

/-- A list is read item by item. -/
theorem listed_iff (what : Expected) {f : Node → Result α} {n : Node} {as : List α} :
    Listed (Gives f) n as ↔ ∃ ns, items what n = .ok ns ∧ ns.mapM f = .ok as := by
  simp only [items_eq_ok_iff, mapM_eq_ok_iff, Listed]
  constructor
  · rintro ⟨mark, ns, hn, has⟩
    exact ⟨ns, ⟨mark, hn⟩, has⟩
  · rintro ⟨ns, ⟨mark, hn⟩, has⟩
    exact ⟨mark, ns, hn, has⟩

variable {entries : List Entry} {fs : List Field}

theorem optional_eq_ok_iff (hfs : fields entries = .ok fs) {name : String} {absent a : α}
    {read : Node → Result α} :
    optional fs name absent read = .ok a ↔ Optional entries name (Gives read) absent a := by
  rw [optional]
  cases hv : value? fs name with
  | none =>
    have hnone := (value?_eq_none_iff hfs).mp hv
    constructor
    · rintro ⟨⟩
      exact .left hnone
    · rintro (⟨hfield, -⟩ | -)
      · exact absurd hfield (hnone _)
      · rfl
  | some v =>
    have hsome := (value?_eq_some_iff hfs).mp hv
    constructor
    · exact fun hread => .given hsome hread
    · rintro (⟨hfield, hread⟩ | hnone)
      · rw [← value?_eq_some_iff hfs, hv] at hfield
        cases hfield
        exact hread
      · exact absurd hsome (hnone v)

end

section

variable {read : Node → Result Expr} {entries : List Entry} {fs : List Field}

theorem gives_some {α : Type} (f : Node → Result α) :
    Gives (fun n => some <$> f n) = fun n a => ∃ b, Gives f n b ∧ some b = a :=
  funext fun _ => funext fun _ => propext map_ok

theorem gives_exprs : Gives (exprs read) = Listed (Gives read) := by
  funext n es
  rw [listed_iff .expressions, Gives, exprs, bind_eq_ok]

theorem gives_types : Gives types = Listed (Gives type) := by
  funext n ts
  rw [listed_iff .types, Gives, types, bind_eq_ok]

theorem function_eq_ok_iff (hfs : fields entries = .ok fs) {head : Node} {params : List Param}
    {result : Ty} {body : Expr} : function read head fs = .ok (params, result, body) ↔
      HasFunction (Gives read) entries head params result body := by
  constructor
  · intro h
    obtain ⟨ns, hns, h⟩ := bind_eq_ok.mp h
    obtain ⟨ps, hps, h⟩ := bind_eq_ok.mp h
    obtain ⟨r, hr, h⟩ := bind_eq_ok.mp h
    cases hv : value? fs "body" with
    | none =>
      rw [hv] at h
      cases h
    | some v =>
      rw [hv] at h
      obtain ⟨b, hb, h⟩ := bind_eq_ok.mp h
      cases pure_ok.mp h
      exact ⟨(listed_iff .parameters).mpr ⟨ns, hns, hps⟩, (optional_eq_ok_iff hfs).mp hr,
        (value?_eq_some_iff hfs).mp hv, hb⟩
  · rintro ⟨hparams, hresult, hv, hbody⟩
    obtain ⟨ns, hns, hps⟩ := (listed_iff .parameters).mp hparams
    refine bind_eq_ok.mpr ⟨ns, hns, bind_eq_ok.mpr ⟨_, hps, ?_⟩⟩
    refine bind_eq_ok.mpr ⟨_, (optional_eq_ok_iff hfs).mpr hresult, ?_⟩
    rw [(value?_eq_some_iff hfs).mpr hv]
    exact bind_eq_ok.mpr ⟨_, hbody, rfl⟩

theorem binding_eq_ok_iff {n : Node} {b : Binding} :
    binding read n = .ok b ↔ IsBinding (Gives read) n b := by
  constructor
  · intro h
    cases n with
    | mapping mark entries =>
      unfold binding at h
      obtain ⟨fs, hfs, h⟩ := bind_eq_ok.mp h
      obtain ⟨_, hallowed, h⟩ := bind_eq_ok.mp h
      dsimp only at h
      cases hname : value? fs "name" with
      | none =>
        rw [hname] at h
        cases h
      | some v =>
        rw [hname] at h
        obtain ⟨name, hv, h⟩ := bind_eq_ok.mp h
        obtain ⟨scheme, hscheme, h⟩ := bind_eq_ok.mp h
        cases hfn : value? fs "fn" with
        | none =>
          rw [hfn] at h
          cases h
        | some head =>
          rw [hfn] at h
          obtain ⟨⟨params, result, body⟩, hfunction, h⟩ := bind_eq_ok.mp h
          obtain rfl := pure_ok.mp h
          rw [optional_eq_ok_iff hfs, gives_some] at hscheme
          exact .mk ((onlyFields_eq_ok_iff hfs).mp hallowed) ((value?_eq_some_iff hfs).mp hname) hv hscheme
            ((value?_eq_some_iff hfs).mp hfn) ((function_eq_ok_iff hfs).mp hfunction)
    | _ => cases h
  · rintro ⟨hallowed, hname, hv, hscheme, hfn, hfunction⟩
    obtain ⟨fs, hfs⟩ := hallowed.exists_fields
    rw [← gives_some, ← optional_eq_ok_iff hfs] at hscheme
    unfold binding
    refine bind_eq_ok.mpr ⟨fs, hfs, bind_eq_ok.mpr ⟨(), (onlyFields_eq_ok_iff hfs).mpr hallowed, ?_⟩⟩
    dsimp only
    rw [(value?_eq_some_iff hfs).mpr hname]
    refine bind_eq_ok.mpr ⟨_, hv, bind_eq_ok.mpr ⟨_, hscheme, ?_⟩⟩
    rw [(value?_eq_some_iff hfs).mpr hfn]
    exact bind_eq_ok.mpr ⟨_, (function_eq_ok_iff hfs).mpr hfunction, rfl⟩

theorem gives_binding : Gives (binding read) = IsBinding (Gives read) :=
  funext fun _ => funext fun _ => propext binding_eq_ok_iff

/-! ## Levels -/

variable [Scalars]

theorem hasForm_of_formed (hfs : fields entries = .ok fs) {whole head : Node} {f : Form} {e : Expr}
    (h : formed read whole head fs f = .ok e) : HasForm (Gives read) entries head f e := by
  cases f with
  | int => exact .int h
  | str => exact .str h
  | var =>
    obtain ⟨name, hname, h⟩ := bind_eq_ok.mp h
    obtain ⟨args, hargs, h⟩ := bind_eq_ok.mp h
    obtain rfl := pure_ok.mp h
    rw [optional_eq_ok_iff hfs, gives_some, gives_types] at hargs
    exact .var hname hargs
  | fn =>
    obtain ⟨⟨params, result, body⟩, hfunction, h⟩ := bind_eq_ok.mp h
    obtain rfl := pure_ok.mp h
    exact .fn ((function_eq_ok_iff hfs).mp hfunction)
  | call =>
    obtain ⟨callee, hcallee, h⟩ := bind_eq_ok.mp h
    obtain ⟨args, hargs, h⟩ := bind_eq_ok.mp h
    obtain rfl := pure_ok.mp h
    rw [optional_eq_ok_iff hfs, gives_exprs] at hargs
    exact .call hcallee hargs
  | letIn =>
    obtain ⟨name, hname, h⟩ := bind_eq_ok.mp h
    obtain ⟨annot, hannot, h⟩ := bind_eq_ok.mp h
    cases hv : value? fs "value" with
    | none =>
      rw [hv] at h
      cases h
    | some v =>
      rw [hv] at h
      obtain ⟨value, hvalue, h⟩ := bind_eq_ok.mp h
      obtain ⟨body, hbody, h⟩ := bind_eq_ok.mp h
      obtain rfl := pure_ok.mp h
      exact .letIn hname ((optional_eq_ok_iff hfs).mp hannot) ((value?_eq_some_iff hfs).mp hv) hvalue
        ((optional_eq_ok_iff hfs).mp hbody)
  | array =>
    obtain ⟨items, hitems, h⟩ := bind_eq_ok.mp h
    obtain ⟨item, hitem, h⟩ := bind_eq_ok.mp h
    obtain rfl := pure_ok.mp h
    exact .array (gives_exprs ▸ hitems) ((optional_eq_ok_iff hfs).mp hitem)
  | group =>
    obtain ⟨ns, hns, h⟩ := bind_eq_ok.mp h
    obtain ⟨bindings, hbindings, h⟩ := bind_eq_ok.mp h
    cases hv : value? fs "in" with
    | none =>
      rw [hv] at h
      cases h
    | some v =>
      rw [hv] at h
      obtain ⟨body, hbody, h⟩ := bind_eq_ok.mp h
      obtain rfl := pure_ok.mp h
      have hlisted := (listed_iff .functions).mpr ⟨ns, hns, hbindings⟩
      rw [gives_binding] at hlisted
      exact .group hlisted ((value?_eq_some_iff hfs).mp hv) hbody
  | seq =>
    obtain ⟨items, hitems, h⟩ := bind_eq_ok.mp h
    split at h
    · obtain rfl := pure_ok.mp h
      exact .seq (gives_exprs ▸ hitems)
    · cases h
  | block =>
    obtain ⟨items, hitems, h⟩ := bind_eq_ok.mp h
    obtain rfl := pure_ok.mp h
    exact .block (gives_exprs ▸ hitems)

theorem formed_of_hasForm (hfs : fields entries = .ok fs) {whole head : Node} {f : Form} {e : Expr}
    (h : HasForm (Gives read) entries head f e) : formed read whole head fs f = .ok e := by
  cases h with
  | int h => exact h
  | str h => exact h
  | var hname hargs =>
    rw [← gives_types, ← gives_some, ← optional_eq_ok_iff hfs] at hargs
    exact bind_eq_ok.mpr ⟨_, hname, bind_eq_ok.mpr ⟨_, hargs, rfl⟩⟩
  | fn hfunction => exact bind_eq_ok.mpr ⟨_, (function_eq_ok_iff hfs).mpr hfunction, rfl⟩
  | call hcallee hargs =>
    rw [← gives_exprs, ← optional_eq_ok_iff hfs] at hargs
    exact bind_eq_ok.mpr ⟨_, hcallee, bind_eq_ok.mpr ⟨_, hargs, rfl⟩⟩
  | letIn hname hannot hv hvalue hbody =>
    refine bind_eq_ok.mpr ⟨_, hname, bind_eq_ok.mpr ⟨_, (optional_eq_ok_iff hfs).mpr hannot, ?_⟩⟩
    rw [(value?_eq_some_iff hfs).mpr hv]
    exact bind_eq_ok.mpr ⟨_, hvalue, bind_eq_ok.mpr ⟨_, (optional_eq_ok_iff hfs).mpr hbody, rfl⟩⟩
  | array hitems hitem =>
    rw [← gives_exprs] at hitems
    exact bind_eq_ok.mpr ⟨_, hitems, bind_eq_ok.mpr ⟨_, (optional_eq_ok_iff hfs).mpr hitem, rfl⟩⟩
  | group hbindings hv hbody =>
    rw [← gives_binding] at hbindings
    obtain ⟨ns, hns, hbindings⟩ := (listed_iff .functions).mp hbindings
    refine bind_eq_ok.mpr ⟨ns, hns, bind_eq_ok.mpr ⟨_, hbindings, ?_⟩⟩
    rw [(value?_eq_some_iff hfs).mpr hv]
    exact bind_eq_ok.mpr ⟨_, hbody, rfl⟩
  | seq hitems =>
    rw [← gives_exprs] at hitems
    exact bind_eq_ok.mpr ⟨_, hitems, rfl⟩
  | block hitems =>
    rw [← gives_exprs] at hitems
    exact bind_eq_ok.mpr ⟨_, hitems, rfl⟩

theorem formed_eq_ok_iff (hfs : fields entries = .ok fs) {whole head : Node} {f : Form} {e : Expr} :
    formed read whole head fs f = .ok e ↔ HasForm (Gives read) entries head f e :=
  ⟨hasForm_of_formed hfs, formed_of_hasForm hfs⟩

/-- The reader of a level follows the rules. -/
theorem level_eq_ok_iff {n : Node} {e : Expr} : level read n = .ok e ↔ Level (Gives read) n e := by
  constructor
  · intro h
    cases n with
    | scalar mark style tag value => exact .scalar h
    | sequence mark items => cases h
    | reference mark target => exact .reference h
    | mapping mark entries =>
      unfold level at h
      obtain ⟨fs, hfs, h⟩ := bind_eq_ok.mp h
      obtain ⟨⟨f, head⟩, hform, h⟩ := bind_eq_ok.mp h
      obtain ⟨_, hallowed, h⟩ := bind_eq_ok.mp h
      exact .mapping ((onlyFields_eq_ok_iff hfs).mp hallowed) (hasField_of_form hfs hform)
        ((formed_eq_ok_iff hfs).mp h)
  · intro h
    cases h with
    | reference h => exact h
    | scalar h => exact h
    | mapping hallowed hhead hform =>
      obtain ⟨fs, hfs⟩ := hallowed.exists_fields
      refine bind_eq_ok.mpr ⟨fs, hfs, bind_eq_ok.mpr ⟨_, form_of_hasField hfs hallowed hhead, ?_⟩⟩
      exact bind_eq_ok.mpr ⟨(), (onlyFields_eq_ok_iff hfs).mpr hallowed, (formed_eq_ok_iff hfs).mpr hform⟩

end

end Document

end Polytype
