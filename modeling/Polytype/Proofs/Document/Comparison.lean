import Mathlib
import Polytype.Proofs.Document.Rules

/-!
# Comparing documents

Two trees that agree place by place describe the same expression. What has to agree depends on what
stands at a place: `Role` tells expressions, lists of them, functions of groups and plain texts apart, and
`Comparison S` lists what a relation `S` between nodes in the same role must keep. At the place of an
expression it need keep nothing but what is read there (`Level.compare`).

The first use is that the depth to which a tree is read does not matter once it is enough: a tree is read
by the rules all the way down (`ofNode_eq_ok_iff`).
-/

namespace Polytype

namespace Document

open Polytype.Yaml (Node Entry Mark Scalars)

/-! ## Roles -/

/-- What stands at a place of a document. -/
inductive Role where
  /-- An expression. -/
  | expr
  /-- A list of expressions. -/
  | exprs
  /-- A function of a group. -/
  | binding
  /-- The functions of a group. -/
  | bindings
  /-- A text or a list of texts. -/
  | plain
deriving DecidableEq

namespace Role

/-- The role of the value of a field. -/
def ofField (name : String) : Role :=
  if name ∈ ["call", "value", "in", "body"] then expr
  else if name ∈ ["args", "array", "seq", "block"] then exprs
  else if name = "group" then bindings
  else plain

/-- The role of the items of a list. -/
def item : Role → Role
  | exprs => expr
  | bindings => binding
  | _ => plain

end Role

/-! ## Relations between documents -/

section

variable (S : Role → Node → Node → Prop)

/-- The fields of one mapping are fields of the other, with related values. -/
structure Corresponds (entries entries' : List Entry) : Prop where
  fields : ∀ {allowed}, Fields allowed entries → Fields allowed entries'
  value : ∀ {name v}, HasField entries name v → ∃ v', HasField entries' name v' ∧ S (.ofField name) v v'
  absent : ∀ {allowed name v'}, Fields allowed entries → HasField entries' name v' →
    ∃ v, HasField entries name v

/-- A relation that keeps the form of all nodes that are not expressions. -/
structure Comparison : Prop where
  scalar : ∀ {role mark style tag value n'}, role ≠ .expr → S role (.scalar mark style tag value) n' →
    ∃ mark', n' = .scalar mark' style tag value
  sequence : ∀ {role mark items n'}, role ≠ .expr → S role (.sequence mark items) n' →
    ∃ mark' items', n' = .sequence mark' items' ∧ List.Forall₂ (S role.item) items items'
  mapping : ∀ {mark entries n'}, S .binding (.mapping mark entries) n' →
    ∃ mark' entries', n' = .mapping mark' entries' ∧ Corresponds S entries entries'

end

/-! ## Texts -/

/-- A reader of texts: it reads nothing but scalars, and their marks do not matter. -/
def ReadsText {α : Type} (f : Node → Result α) : Prop :=
  ∀ n a, Gives f n a → ∃ mark style tag value, n = .scalar mark style tag value ∧
    ∀ mark', Gives f (.scalar mark' style tag value) a

theorem readsText_nonEmpty (what : Expected) : ReadsText (nonEmpty what) := by
  intro n a h
  cases n with
  | scalar mark style tag value =>
    refine ⟨mark, style, tag, value, rfl, fun mark' => ?_⟩
    rw [Gives, nonEmpty] at h ⊢
    split_ifs at h ⊢
    exact h
  | _ => cases h

/-- What is made of a text, or else refused, is read from a text. -/
theorem ReadsText.bind {α β : Type} {f : Node → Result α} (hf : ReadsText f) {g : Node → α → Result β}
    (hg : ∀ n n' a b, g n a = .ok b → g n' a = .ok b) : ReadsText fun n => f n >>= g n := by
  intro n b h
  obtain ⟨a, ha, hb⟩ := bind_eq_ok.mp h
  obtain ⟨mark, style, tag, value, rfl, hmark⟩ := hf n a ha
  exact ⟨mark, style, tag, value, rfl, fun mark' => bind_eq_ok.mpr ⟨a, hmark mark', hg _ _ a b hb⟩⟩

theorem readsText_type : ReadsText type := by
  refine (readsText_nonEmpty .type).bind fun n n' source t h => ?_
  split at h
  · exact h
  · cases h

theorem readsText_genericType : ReadsText genericType := by
  refine (readsText_nonEmpty .genericType).bind fun n n' source g h => ?_
  split at h
  · exact h
  · cases h

theorem readsText_param : ReadsText param := by
  refine (readsText_nonEmpty .parameter).bind fun n n' source p h => ?_
  dsimp only at h ⊢
  split_ifs at h ⊢
  · cases h
  · split at h
    · exact h
    · split at h
      · exact h
      · cases h

theorem readsText_intLiteral [Scalars] : ReadsText intLiteral := by
  intro n e h
  cases n with
  | scalar mark style tag value =>
    refine ⟨mark, style, tag, value, rfl, fun mark' => ?_⟩
    rw [Gives, intLiteral] at h ⊢
    split at h
    · exact h
    · cases h
  | _ => cases h

theorem readsText_strLiteral : ReadsText strLiteral := by
  intro n e h
  cases n with
  | scalar mark style tag value => exact ⟨mark, style, tag, value, rfl, fun mark' => h⟩
  | _ => cases h

/-! ## Parts -/

/-- What is read of a node is read of every related one. -/
def Carries {α : Type} (S : Role → Node → Node → Prop) (role : Role) (P P' : Node → α → Prop) : Prop :=
  ∀ n n' a, S role n n' → P n a → P' n' a

section

variable {α : Type} {S : Role → Node → Node → Prop} (hS : Comparison S) {role : Role}
  (hrole : role ≠ .expr)
include hS hrole

theorem ReadsText.carries {f : Node → Result α} (hf : ReadsText f) :
    Carries S role (Gives f) (Gives f) := by
  intro n n' a h ha
  obtain ⟨mark, style, tag, value, rfl, hmark⟩ := hf n a ha
  obtain ⟨mark', rfl⟩ := hS.scalar hrole h
  exact hmark mark'

theorem carries_listed {P P' : Node → α → Prop} (hP : Carries S role.item P P') :
    Carries S role (Listed P) (Listed P') := by
  rintro _ n' as h ⟨mark, items, rfl, has⟩
  obtain ⟨mark', items', rfl, hitems⟩ := hS.sequence hrole h
  refine ⟨mark', items', rfl, ?_⟩
  clear h
  induction hitems generalizing as with
  | nil =>
    cases has
    exact .nil
  | cons hm _ ih =>
    cases has with
    | cons ha hrest => exact .cons (hP _ _ _ hm ha) (ih _ hrest)

end

theorem Carries.some {α : Type} {S : Role → Node → Node → Prop} {role : Role} {P P' : Node → α → Prop}
    (hP : Carries S role P P') :
    Carries S role (fun n a => ∃ b, P n b ∧ some b = a) fun n a => ∃ b, P' n b ∧ some b = a := by
  rintro n n' a h ⟨b, hb, ha⟩
  exact ⟨b, hP n n' b h hb, ha⟩

section

variable {α : Type} {S : Role → Node → Node → Prop} (hS : Comparison S) {R R' : Node → Expr → Prop}
  (hR : Carries S .expr R R') {entries entries' : List Entry} (h : Corresponds S entries entries')
  {allowed : List String} (hallowed : Fields allowed entries)

include h hallowed in
theorem Optional.compare {name : String} {P P' : Node → α → Prop} {absent a : α}
    (hP : Carries S (.ofField name) P P') (ha : Optional entries name P absent a) :
    Optional entries' name P' absent a := by
  cases ha with
  | given hv ha =>
    obtain ⟨v', hv', hS'⟩ := h.value hv
    exact .given hv' (hP _ _ _ hS' ha)
  | left hnone =>
    refine .left fun v' hv' => ?_
    obtain ⟨v, hv⟩ := h.absent hallowed hv'
    exact hnone v hv

include hS hR h hallowed in
theorem HasFunction.compare {head head' : Node} (hhead : S .plain head head') {params : List Param}
    {result : Ty} {body : Expr} (hfn : HasFunction R entries head params result body) :
    HasFunction R' entries' head' params result body := by
  obtain ⟨hparams, hresult, hbody, hread⟩ := hfn
  obtain ⟨v', hbody', hv⟩ := h.value hbody
  refine .mk ?_ ?_ hbody' (hR _ _ _ hv hread)
  · exact carries_listed hS (by decide) (readsText_param.carries hS (by decide)) _ _ _ hhead hparams
  · exact hresult.compare h hallowed (readsText_type.carries hS (by decide))

include hS hR in
theorem carries_isBinding : Carries S .binding (IsBinding R) (IsBinding R') := by
  rintro _ n' _ hn ⟨hallowed, hname, hread, hscheme, hfn, hfunction⟩
  obtain ⟨mark', entries', rfl, h⟩ := hS.mapping hn
  obtain ⟨v', hname', hv⟩ := h.value hname
  obtain ⟨head', hfn', hhead⟩ := h.value hfn
  refine .mk (h.fields hallowed) hname' ?_ ?_ hfn' (hfunction.compare hS hR h hallowed hhead)
  · exact (readsText_nonEmpty _).carries hS (by decide) _ _ _ hv hread
  · exact hscheme.compare h hallowed (readsText_genericType.carries hS (by decide)).some

include hS hR h hallowed in
theorem HasForm.compare [Scalars] {f : Form} {head head' : Node} (hhead : S (.ofField f.name) head head')
    {e : Expr} (he : HasForm R entries head f e) : HasForm R' entries' head' f e := by
  have htype : Carries S .plain (Gives type) (Gives type) := readsText_type.carries hS (by decide)
  have hname : Carries S .plain (Gives (nonEmpty .variableName)) (Gives (nonEmpty .variableName)) :=
    (readsText_nonEmpty _).carries hS (by decide)
  have hlist : Carries S .exprs (Listed R) (Listed R') := carries_listed hS (by decide) hR
  cases he with
  | int he => exact .int (readsText_intLiteral.carries hS (by decide) _ _ _ hhead he)
  | str he => exact .str (readsText_strLiteral.carries hS (by decide) _ _ _ hhead he)
  | var hvar hargs =>
    have htypes : Carries S .plain (Listed (Gives type)) (Listed (Gives type)) :=
      carries_listed hS (by decide) htype
    exact .var (hname _ _ _ hhead hvar) (hargs.compare h hallowed htypes.some)
  | fn hfunction => exact .fn (hfunction.compare hS hR h hallowed hhead)
  | call hcallee hargs => exact .call (hR _ _ _ hhead hcallee) (hargs.compare h hallowed hlist)
  | letIn hvar hannot hv hvalue hbody =>
    obtain ⟨v', hv', hS'⟩ := h.value hv
    exact .letIn (hname _ _ _ hhead hvar) (hannot.compare h hallowed htype) hv' (hR _ _ _ hS' hvalue)
      (hbody.compare h hallowed hR)
  | array hitems hitem => exact .array (hlist _ _ _ hhead hitems) (hitem.compare h hallowed htype)
  | group hbindings hv hbody =>
    obtain ⟨v', hv', hS'⟩ := h.value hv
    have hlisted : Carries S .bindings (Listed (IsBinding R)) (Listed (IsBinding R')) :=
      carries_listed hS (by decide) (carries_isBinding hS hR)
    exact .group (hlisted _ _ _ hhead hbindings) hv' (hR _ _ _ hS' hbody)
  | seq hitems => exact .seq (hlist _ _ _ hhead hitems)
  | block hitems => exact .block (hlist _ _ _ hhead hitems)

end

/-- Nodes of the same kind at the place of an expression. A list is no expression, so nothing is asked of
it. -/
inductive Alike (S : Role → Node → Node → Prop) : Node → Node → Prop
  | scalar {mark mark' : Mark} {style : Yaml.Style} {tag value : String} :
      Alike S (.scalar mark style tag value) (.scalar mark' style tag value)
  | sequence {mark : Mark} {items : List Node} {n' : Node} : Alike S (.sequence mark items) n'
  | mapping {mark mark' : Mark} {entries entries' : List Entry} :
      Corresponds S entries entries' → Alike S (.mapping mark entries) (.mapping mark' entries')
  | reference {mark mark' : Mark} {target target' : Node} :
      S .expr target target' → Alike S (.reference mark target) (.reference mark' target')

/-- The place of a scalar does not matter unless it is refused. -/
theorem scalar_mark [Scalars] {mark mark' : Mark} {style : Yaml.Style} {tag value : String} {e : Expr}
    (h : scalar mark style tag value = .ok e) : scalar mark' style tag value = .ok e := by
  rw [scalar] at h ⊢
  split_ifs at h ⊢
  · exact h
  · obtain ⟨_, _, _, _, heq, hmark⟩ := readsText_intLiteral _ _ h
    cases heq
    exact hmark mark'
  · exact h

/-- Nodes of the same kind with related nodes below them describe the same expression. -/
theorem Level.compare [Scalars] {S : Role → Node → Node → Prop} (hS : Comparison S)
    {R R' : Node → Expr → Prop} (hR : Carries S .expr R R') {n n' : Node} (h : Alike S n n') {e : Expr} (he : Level R n e) :
    Level R' n' e := by
  cases h with
  | scalar =>
    cases he with
    | scalar he => exact .scalar (scalar_mark he)
  | sequence => cases he
  | mapping h =>
    cases he with
    | mapping hallowed hhead hform =>
      obtain ⟨head', hhead', hS'⟩ := h.value hhead
      exact .mapping (h.fields hallowed) hhead' (hform.compare hS hR h hallowed hS')
  | reference h =>
    cases he with
    | reference he => exact .reference (hR _ _ _ h he)

/-! ## Entries -/

/-- Entries that are the same field, with related values, if the first is a field at all. -/
def SameField (S : Role → Node → Node → Prop) (entry entry' : Entry) : Prop :=
  ∀ name, fieldName? entry = some name →
    fieldName? entry' = some name ∧ S (.ofField name) entry.value entry'.value

theorem exists_mem_right {α β : Type} {P : α → β → Prop} {as : List α} {bs : List β}
    (h : List.Forall₂ P as bs) {a : α} (ha : a ∈ as) : ∃ b ∈ bs, P a b := by
  induction h with
  | nil => cases ha
  | cons hab _ ih =>
    rcases List.mem_cons.mp ha with rfl | ha
    · exact ⟨_, List.mem_cons_self, hab⟩
    · obtain ⟨b, hb, hab⟩ := ih ha
      exact ⟨b, List.mem_cons_of_mem _ hb, hab⟩

theorem exists_mem_left {α β : Type} {P : α → β → Prop} {as : List α} {bs : List β}
    (h : List.Forall₂ P as bs) {b : β} (hb : b ∈ bs) : ∃ a ∈ as, P a b :=
  exists_mem_right (P := flip P) h.flip hb

theorem map_fieldName?_of_sameField {S : Role → Node → Node → Prop} {entries entries' : List Entry}
    (h : List.Forall₂ (SameField S) entries entries')
    (hnamed : ∀ entry ∈ entries, ∃ name, fieldName? entry = some name) :
    entries'.map fieldName? = entries.map fieldName? := by
  induction h with
  | nil => rfl
  | cons hrel _ ih =>
    rw [List.forall_mem_cons] at hnamed
    obtain ⟨name, hname⟩ := hnamed.1
    rw [List.map_cons, List.map_cons, ih hnamed.2, (hrel name hname).1, hname]

/-- Mappings correspond if their entries do in some order. -/
theorem Corresponds.of_perm {S : Role → Node → Node → Prop} {entries mid entries' : List Entry}
    (hperm : entries.Perm mid) (hsame : List.Forall₂ (SameField S) mid entries') :
    Corresponds S entries entries' where
  fields := by
    intro allowed h
    constructor
    · intro entry' hentry'
      obtain ⟨entry, hentry, hrel⟩ := exists_mem_left hsame hentry'
      obtain ⟨name, hallowed, hname⟩ := h.named entry (hperm.mem_iff.mpr hentry)
      exact ⟨name, hallowed, (hrel name hname).1⟩
    · have hmid : (mid.map fieldName?).Nodup := (hperm.map fieldName?).nodup_iff.mp h.distinct
      rwa [map_fieldName?_of_sameField hsame fun entry hentry => ?_]
      obtain ⟨name, -, hname⟩ := h.named entry (hperm.mem_iff.mpr hentry)
      exact ⟨name, hname⟩
  value := by
    rintro name v ⟨entry, hentry, hname, rfl⟩
    obtain ⟨entry', hentry', hrel⟩ := exists_mem_right hsame (hperm.mem_iff.mp hentry)
    exact ⟨entry'.value, ⟨entry', hentry', (hrel name hname).1, rfl⟩, (hrel name hname).2⟩
  absent := by
    rintro allowed name v' h ⟨entry', hentry', hname', rfl⟩
    obtain ⟨entry, hentry, hrel⟩ := exists_mem_left hsame hentry'
    obtain ⟨other, -, hname⟩ := h.named entry (hperm.mem_iff.mpr hentry)
    have heq : some name = some other := hname'.symm.trans (hrel other hname).1
    exact ⟨entry.value, entry, hperm.mem_iff.mpr hentry, hname.trans heq.symm, rfl⟩

/-! ## Depth -/

theorem depth_le_of_mem {n : Node} {items : List Node} (h : n ∈ items) :
    n.depth ≤ Node.depthList items := by
  induction items with
  | nil => cases h
  | cons m items ih =>
    rw [Node.depthList]
    rcases List.mem_cons.mp h with rfl | h
    · exact Nat.le_max_left _ _
    · exact le_trans (ih h) (Nat.le_max_right _ _)

theorem depth_le_of_hasField {entries : List Entry} {name : String} {v : Node}
    (h : HasField entries name v) : v.depth ≤ Node.depthEntries entries := by
  obtain ⟨entry, hentry, -, rfl⟩ := h
  induction entries with
  | nil => cases hentry
  | cons e entries ih =>
    obtain ⟨key, value⟩ := e
    rw [Node.depthEntries]
    rcases List.mem_cons.mp hentry with rfl | hentry
    · exact le_trans (Nat.le_max_right _ _) (Nat.le_max_left _ _)
    · exact le_trans (ih hentry) (Nat.le_max_right _ _)

/-- The same node, of a bounded depth. -/
def SameTo (depth : Nat) (_ : Role) (n n' : Node) : Prop := n' = n ∧ n.depth ≤ depth

theorem SameTo.corresponds {depth : Nat} {entries : List Entry}
    (h : Node.depthEntries entries ≤ depth) : Corresponds (SameTo depth) entries entries where
  fields := id
  value hv := ⟨_, hv, rfl, le_trans (depth_le_of_hasField hv) h⟩
  absent _ hv := ⟨_, hv⟩

theorem SameTo.comparison (depth : Nat) : Comparison (SameTo depth) where
  scalar _ h := ⟨_, h.1⟩
  sequence := by
    rintro role mark items n' - ⟨rfl, hdepth⟩
    rw [Node.depth] at hdepth
    refine ⟨mark, items, rfl, List.forall₂_same.mpr fun n hn => ⟨rfl, ?_⟩⟩
    exact le_trans (depth_le_of_mem hn) (by omega)
  mapping := by
    rintro mark entries n' ⟨rfl, hdepth⟩
    rw [Node.depth] at hdepth
    exact ⟨mark, entries, rfl, SameTo.corresponds (by omega)⟩

/-- The nodes below a node are less deep, and a rule asks for no others. -/
theorem Level.mono_below [Scalars] {R R' : Node → Expr → Prop} {depth : Nat} {n : Node} {e : Expr}
    (hn : n.depth ≤ depth + 1) (hR : ∀ m x, m.depth ≤ depth → R m x → R' m x) (he : Level R n e) :
    Level R' n e := by
  have halike : Alike (SameTo depth) n n := by
    cases n <;> rw [Node.depth] at hn
    case scalar => exact .scalar
    case sequence => exact .sequence
    case mapping => exact .mapping (SameTo.corresponds (by omega))
    case reference => exact .reference ⟨rfl, by omega⟩
  refine he.compare (SameTo.comparison depth) ?_ halike
  rintro m m' x ⟨hsame, hm⟩ hx
  exact hsame ▸ hR m x hm hx

theorem Level.mono [Scalars] {R R' : Node → Expr → Prop} (hR : ∀ m x, R m x → R' m x) {n : Node} {e : Expr}
    (he : Level R n e) : Level R' n e :=
  he.mono_below (Nat.le_succ _) fun m x _ => hR m x

theorem depth_pos (n : Node) : 0 < n.depth := by
  cases n <;> rw [Node.depth] <;> omega

/-- A deeper reader reads no less. -/
theorem readTo_mono [Scalars] {depth depth' : Nat} (hle : depth ≤ depth') {n : Node} {e : Expr}
    (h : readTo depth n = .ok e) : readTo depth' n = .ok e := by
  induction depth generalizing depth' n e with
  | zero => cases h
  | succ depth ih =>
    obtain ⟨d, rfl⟩ : ∃ d, depth' = d + 1 := ⟨depth' - 1, by omega⟩
    exact level_eq_ok_iff.mpr ((level_eq_ok_iff.mp h).mono fun m x hx => ih (by omega) hx)

theorem ofNode_of_level [Scalars] {n : Node} {e : Expr} (h : Level (Gives Expr.ofNode) n e) :
    Expr.ofNode n = .ok e := by
  have hpos := depth_pos n
  obtain ⟨d, hd⟩ : ∃ d, n.depth = d + 1 := ⟨n.depth - 1, by omega⟩
  rw [Expr.ofNode, hd]
  exact level_eq_ok_iff.mpr (h.mono_below hd.le fun m x hm hx => readTo_mono hm hx)

theorem ofNode_of_readTo [Scalars] {depth : Nat} {n : Node} {e : Expr} (h : readTo depth n = .ok e) :
    Expr.ofNode n = .ok e := by
  induction depth generalizing n e with
  | zero => cases h
  | succ depth ih => exact ofNode_of_level ((level_eq_ok_iff.mp h).mono fun m x hx => ih hx)

/-- A tree describes an expression by the rules, all the way down. -/
theorem ofNode_eq_ok_iff [Scalars] {n : Node} {e : Expr} :
    Expr.ofNode n = .ok e ↔ Level (Gives Expr.ofNode) n e := by
  refine ⟨fun h => ?_, ofNode_of_level⟩
  have hpos := depth_pos n
  obtain ⟨d, hd⟩ : ∃ d, n.depth = d + 1 := ⟨n.depth - 1, by omega⟩
  rw [Expr.ofNode, hd] at h
  exact (level_eq_ok_iff.mp h).mono fun m x hx => ofNode_of_readTo hx

/-- Trees that are alike at the places of expressions too describe the same expression. -/
theorem carries_ofNode [Scalars] {S : Role → Node → Node → Prop} (hS : Comparison S)
    (halike : ∀ n n', S .expr n n' → Alike S n n') :
    Carries S .expr (Gives Expr.ofNode) (Gives Expr.ofNode) := by
  have hread : ∀ depth, Carries S .expr (Gives (readTo depth)) (Gives Expr.ofNode) := by
    intro depth
    induction depth with
    | zero =>
      intro n n' e h he
      cases he
    | succ depth ih =>
      intro n n' e h he
      exact ofNode_of_level ((level_eq_ok_iff.mp he).compare hS ih (halike n n' h))
  exact fun n => hread n.depth n

end Document

end Polytype
