import Mathlib
import Polytype.Proofs.Expr.MapTypes
import Polytype.Proofs.Ty.Substitution

/-!
# References to the functions of groups

A variable may refer to a function of a group around it, unless the name is bound again in between. A
`Scope` says for every name which function it refers to and which generic type is recorded there. With
it, `Uses P scope e d` says of a program `e` and the tree `d` made from it by inference:

* they have the same form, and bind the same names at the same places;
* the functions that have a generic type in `e` have it in `d`, and the others have one in `d`;
* every variable of `d` that refers to a function has a type that stands in the relation `P` to what is
  recorded for the function.

`Uses.map` carries the relation along when the variables of all types of `d` are replaced.
-/

namespace Polytype

/-! ## Scopes -/

/-- The generic type that is recorded for a function of a group, and how it came there. -/
inductive Recorded where
  /-- The program gave it. -/
  | given (g : Scheme)
  /-- It was inferred. -/
  | inferred (g : Scheme)

namespace Recorded

/-- The generic type itself. -/
def generic : Recorded → Scheme
  | given g => g
  | inferred g => g

/-- The generic type that the program gave, if it gave one. -/
def own : Recorded → Option Scheme
  | given g => some g
  | inferred _ => none

end Recorded

/-- What is recorded for the function of a group that a name refers to, if it refers to one. -/
abbrev Scope := String → Option Recorded

namespace Scope

/-- No name refers to a function of a group. -/
def empty : Scope := fun _ => none

/-- A name is bound to a function of a group or to something else. -/
def bind (sc : Scope) (x : String) (f : Option Recorded) : Scope := Function.update sc x f

/-- The parameters of a function are bound. -/
def bindParams (sc : Scope) : List Param → Scope
  | [] => sc
  | p :: ps => (sc.bind p.name none).bindParams ps

/-- An item of a block binds what it binds for the items after it. -/
def after (sc : Scope) (e : Expr) : Scope :=
  match e.boundAfter? with
  | some x => sc.bind x none
  | none => sc

/-- The functions of a group are bound, with what is recorded for them. -/
def bindGroup (sc : Scope) : List Binding → List Recorded → Scope
  | b :: bs, f :: fs => (sc.bind b.name (some f)).bindGroup bs fs
  | _, _ => sc

/-- The names refer to functions in both scopes or in none, and what is recorded is related. -/
def Rel (R : Recorded → Recorded → Prop) (sc sc' : Scope) : Prop := ∀ x, Option.Rel R (sc x) (sc' x)

namespace Rel

variable {R : Recorded → Recorded → Prop} {sc sc' : Scope}

theorem empty (R : Recorded → Recorded → Prop) : Scope.empty.Rel R .empty := fun _ => .none

theorem imp {R' : Recorded → Recorded → Prop} (h : sc.Rel R sc') (hi : ∀ f f', R f f' → R' f f') :
    sc.Rel R' sc' := by
  intro x
  have hx := h x
  generalize sc x = o at hx
  generalize sc' x = o' at hx
  cases hx with
  | none => exact .none
  | some hf => exact .some (hi _ _ hf)

theorem bind (h : sc.Rel R sc') (x : String) {f f' : Option Recorded} (hf : Option.Rel R f f') :
    (sc.bind x f).Rel R (sc'.bind x f') := by
  intro y
  rw [Scope.bind, Scope.bind]
  by_cases hy : y = x
  · subst hy
    rwa [Function.update_self, Function.update_self]
  · rw [Function.update_of_ne hy, Function.update_of_ne hy]
    exact h y

theorem bindParams (h : sc.Rel R sc') (ps : List Param) :
    (sc.bindParams ps).Rel R (sc'.bindParams ps) := by
  induction ps generalizing sc sc' with
  | nil => exact h
  | cons p ps ih => exact ih (h.bind p.name .none)

theorem after (h : sc.Rel R sc') (e : Expr) : (sc.after e).Rel R (sc'.after e) := by
  rw [Scope.after, Scope.after]
  cases e.boundAfter? with
  | none => exact h
  | some x => exact h.bind x .none

theorem bindGroup (h : sc.Rel R sc') {fs fs' : List Recorded} (hf : List.Forall₂ R fs fs')
    (bs : List Binding) : (sc.bindGroup bs fs).Rel R (sc'.bindGroup bs fs') := by
  induction hf generalizing sc sc' bs with
  | nil =>
    rw [Scope.bindGroup, Scope.bindGroup]
    · exact h
    · simp
    · simp
  | cons hf _ ih =>
    cases bs with
    | nil =>
      rw [Scope.bindGroup, Scope.bindGroup]
      · exact h
      · simp
      · simp
    | cons b bs => exact ih (h.bind b.name (.some hf)) bs

end Rel

end Scope

/-! ## Uses -/

mutual

/-- A tree has the form of a program, and its variables that refer to functions of groups have types
that are related to what is recorded for the functions. -/
inductive Uses (P : Recorded → Ty → Prop) : Scope → Expr → Expr → Prop
  | absent {sc : Scope} : Uses P sc .absent .absent
  | int {sc : Scope} {value : Int64} {t t' : Ty} : Uses P sc (.int value t) (.int value t')
  | str {sc : Scope} {value : String} {t t' : Ty} : Uses P sc (.str value t) (.str value t')
  | var {sc : Scope} {name : String} {as as' : Option (List Ty)} {t t' : Ty} :
      (∀ f, sc name = some f → P f t') → Uses P sc (.var name as t) (.var name as' t')
  | func {sc : Scope} {ps ps' : List Param} {r r' t t' : Ty} {b b' : Expr} :
      ps'.map (·.name) = ps.map (·.name) → Uses P (sc.bindParams ps) b b' →
      Uses P sc (.func ps r b t) (.func ps' r' b' t')
  | call {sc : Scope} {f f' : Expr} {es ds : List Expr} {t t' : Ty} :
      Uses P sc f f' → UsesEach P sc es ds → Uses P sc (.call f es t) (.call f' ds t')
  | letIn {sc : Scope} {name : String} {a a' t t' : Ty} {v v' b b' : Expr} :
      Uses P sc v v' → Uses P (sc.bind name none) b b' →
      Uses P sc (.letIn name a v b t) (.letIn name a' v' b' t')
  | group {sc : Scope} {bs ds : List Binding} {fs : List Recorded} {b b' : Expr} {t t' : Ty} :
      UsesFunctions P (sc.bindGroup bs fs) bs fs ds → Uses P (sc.bindGroup bs fs) b b' →
      Uses P sc (.group bs b t) (.group ds b' t')
  | array {sc : Scope} {a a' t t' : Ty} {es ds : List Expr} :
      UsesEach P sc es ds → Uses P sc (.array a es t) (.array a' ds t')
  | seq {sc : Scope} {f f' v v' : Expr} {t t' : Ty} :
      Uses P sc f f' → Uses P sc v v' → Uses P sc (.seq f v t) (.seq f' v' t')
  | block {sc : Scope} {es ds : List Expr} {t t' : Ty} :
      UsesItems P sc es ds → Uses P sc (.block es t) (.block ds t')

/-- Expressions one by one. -/
inductive UsesEach (P : Recorded → Ty → Prop) : Scope → List Expr → List Expr → Prop
  | nil {sc : Scope} : UsesEach P sc [] []
  | cons {sc : Scope} {e d : Expr} {es ds : List Expr} :
      Uses P sc e d → UsesEach P sc es ds → UsesEach P sc (e :: es) (d :: ds)

/-- The items of a block. -/
inductive UsesItems (P : Recorded → Ty → Prop) : Scope → List Expr → List Expr → Prop
  | nil {sc : Scope} : UsesItems P sc [] []
  | cons {sc : Scope} {e d : Expr} {es ds : List Expr} :
      Uses P sc e d → UsesItems P (sc.after e) es ds → UsesItems P sc (e :: es) (d :: ds)

/-- The functions of a group, with what is recorded for them. -/
inductive UsesFunctions (P : Recorded → Ty → Prop) :
    Scope → List Binding → List Recorded → List Binding → Prop
  | nil {sc : Scope} : UsesFunctions P sc [] [] []
  | cons {sc : Scope} {name : String} {own : Option Scheme} {f : Recorded} {ps ps' : List Param}
      {r r' t t' : Ty} {b b' : Expr} {bs ds : List Binding} {fs : List Recorded} :
      own = f.own → Uses P sc (.func ps r b t) (.func ps' r' b' t') → UsesFunctions P sc bs fs ds →
      UsesFunctions P sc (.fn name own ps r b t :: bs) (f :: fs)
        (.fn name (some f.generic) ps' r' b' t' :: ds)

end

/-! ## Uses under a substitution -/

/-- What is recorded after the variables of all types of a tree have been replaced; generic types that
were given have none. -/
def Recorded.subst (τ : Int → Ty) : Recorded → Recorded
  | given g => given g
  | inferred g => inferred (Expr.mapScheme (Ty.subst τ) g)

/-- Uses of one function become uses of the other when variables are replaced. -/
def Carries (P P' : Recorded → Ty → Prop) (τ : Int → Ty) (f f' : Recorded) : Prop :=
  ∀ t, P f t → P' f' (t.subst τ)

/-- The generic types that a program gives have no variables. -/
def Expr.GivesClosed (e : Expr) : Prop := e.Every fun n => ∀ g ∈ n.generics, g.body.vars = []

/-- What the program gives at a node has no variables, and its uses are carried along. -/
def GivenCarries (P P' : Recorded → Ty → Prop) (τ : Int → Ty) (n : Expr) : Prop :=
  ∀ g ∈ n.generics, g.body.vars = [] ∧ Carries P P' τ (.given g) (.given g)

/-- The uses of what is recorded at a node of a tree are carried along. -/
def InferredCarries (P P' : Recorded → Ty → Prop) (τ : Int → Ty) (n : Expr) : Prop :=
  ∀ g ∈ n.generics, Carries P P' τ (.inferred g) (Recorded.subst τ (.inferred g))

section

variable {P P' : Recorded → Ty → Prop} {τ : Int → Ty} {sc sc' : Scope}

theorem mapPresent_subst (τ : Int → Ty) (t : Ty) : Expr.mapPresent (Ty.subst τ) t = t.subst τ := by
  rw [Expr.mapPresent_of_absent (Ty.subst_absent τ)]

theorem mapScheme_closed {g : Scheme} (hg : g.body.vars = []) :
    Expr.mapScheme (Ty.subst τ) g = g := by
  rw [Expr.mapScheme, mapPresent_subst, Ty.subst_closed hg]

/-- The uses in a program's tree are carried along. -/
def Mapping (P P' : Recorded → Ty → Prop) (τ : Int → Ty) (e : Expr) : Prop :=
  ∀ {d : Expr} {sc sc' : Scope}, Uses P sc e d → sc.Rel (Carries P P' τ) sc' →
    e.Every (GivenCarries P P' τ) → d.Every (InferredCarries P P' τ) →
    Uses P' sc' e (d.mapTypes (Ty.subst τ))

theorem UsesEach.map {es ds : List Expr} (ih : ∀ e ∈ es, Mapping P P' τ e)
    (h : UsesEach P sc es ds) (hsc : sc.Rel (Carries P P' τ) sc')
    (hes : ∀ e ∈ es, e.Every (GivenCarries P P' τ))
    (hds : ∀ d ∈ ds, d.Every (InferredCarries P P' τ)) :
    UsesEach P' sc' es (Expr.mapTypesList (Ty.subst τ) ds) := by
  induction es generalizing ds with
  | nil =>
    cases h
    exact .nil
  | cons e es ihs =>
    cases h with
    | cons h hrest =>
      rw [List.forall_mem_cons] at ih hes hds
      exact .cons (ih.1 h hsc hes.1 hds.1) (ihs ih.2 hrest hes.2 hds.2)

theorem UsesItems.map {es ds : List Expr} (ih : ∀ e ∈ es, Mapping P P' τ e)
    (h : UsesItems P sc es ds) (hsc : sc.Rel (Carries P P' τ) sc')
    (hes : ∀ e ∈ es, e.Every (GivenCarries P P' τ))
    (hds : ∀ d ∈ ds, d.Every (InferredCarries P P' τ)) :
    UsesItems P' sc' es (Expr.mapTypesList (Ty.subst τ) ds) := by
  induction es generalizing ds sc sc' with
  | nil =>
    cases h
    exact .nil
  | cons e es ihs =>
    cases h with
    | cons h hrest =>
      rw [List.forall_mem_cons] at ih hes hds
      exact .cons (ih.1 h hsc hes.1 hds.1) (ihs ih.2 hrest (hsc.after e) hes.2 hds.2)

/-- What is recorded for a function stands in the tree, and in the program if it was given there. -/
theorem UsesFunctions.recorded {bs ds : List Binding} {fs : List Recorded}
    (h : UsesFunctions P sc bs fs ds) :
    ∀ f ∈ fs, (∃ b ∈ bs, b.scheme = f.own) ∧ ∃ d ∈ ds, d.scheme = some f.generic := by
  induction fs generalizing bs ds with
  | nil => simp
  | cons f fs ih =>
    cases h with
    | cons hown _ hrest =>
      rw [List.forall_mem_cons]
      refine ⟨⟨⟨_, List.mem_cons_self, hown⟩, _, List.mem_cons_self, rfl⟩, fun f' hf' => ?_⟩
      obtain ⟨⟨b, hb, hbs⟩, d, hd, hds⟩ := ih hrest f' hf'
      exact ⟨⟨b, List.mem_cons_of_mem _ hb, hbs⟩, d, List.mem_cons_of_mem _ hd, hds⟩

theorem UsesFunctions.given_closed {bs ds : List Binding} {fs : List Recorded}
    {body : Expr} {ty : Ty} (h : UsesFunctions P sc bs fs ds)
    (hbs : GivenCarries P P' τ (.group bs body ty)) :
    ∀ f ∈ fs, ∀ g, f = .given g → g.body.vars = [] := by
  rintro f hf g rfl
  obtain ⟨⟨b, hb, hown⟩, _⟩ := h.recorded _ hf
  exact (hbs g (List.mem_filterMap.mpr ⟨b, hb, hown⟩)).1

theorem UsesFunctions.carries {bs ds : List Binding} {fs : List Recorded}
    {body body' : Expr} {ty ty' : Ty} (h : UsesFunctions P sc bs fs ds)
    (hbs : GivenCarries P P' τ (.group bs body ty))
    (hds : InferredCarries P P' τ (.group ds body' ty')) :
    List.Forall₂ (Carries P P' τ) fs (fs.map (Recorded.subst τ)) := by
  rw [List.forall₂_map_right_iff, List.forall₂_same]
  intro f hf
  obtain ⟨⟨b, hb, hown⟩, d, hd, hgeneric⟩ := h.recorded f hf
  cases f with
  | given g => exact (hbs g (List.mem_filterMap.mpr ⟨b, hb, hown⟩)).2
  | inferred g => exact hds g (List.mem_filterMap.mpr ⟨d, hd, hgeneric⟩)

theorem UsesFunctions.map {bs ds : List Binding} {fs : List Recorded}
    (ih : ∀ b ∈ bs, ∀ e, b.func? = some e → Mapping P P' τ e)
    (h : UsesFunctions P sc bs fs ds) (hsc : sc.Rel (Carries P P' τ) sc')
    (hfs : ∀ f ∈ fs, ∀ g, f = .given g → g.body.vars = [])
    (hbs : ∀ b ∈ bs, ∀ e, b.func? = some e → e.Every (GivenCarries P P' τ))
    (hds : ∀ b ∈ ds, ∀ d, b.func? = some d → d.Every (InferredCarries P P' τ)) :
    UsesFunctions P' sc' bs (fs.map (Recorded.subst τ))
      (Expr.mapTypesBindings (Ty.subst τ) ds) := by
  induction bs generalizing fs ds with
  | nil =>
    cases h
    exact .nil
  | cons b bs ihs =>
    cases h with
    | @cons _ name own f ps ps' r r' t t' c c' _ ds fs hown huse hrest =>
      rw [List.forall_mem_cons] at ih hfs hbs hds
      have hmap := ih.1 _ rfl huse hsc (hbs.1 _ rfl) (hds.1 _ rfl)
      rw [Expr.mapTypes] at hmap
      have hgeneric : (f.subst τ).generic = Expr.mapScheme (Ty.subst τ) f.generic := by
        cases f with
        | given g => exact (mapScheme_closed (hfs.1 g rfl)).symm
        | inferred g => rfl
      have hown' : own = (f.subst τ).own := by
        rw [hown]
        cases f <;> rfl
      rw [Expr.mapTypesBindings, Expr.mapTypesBinding, Option.map_some, ← hgeneric, List.map_cons]
      exact .cons hown' hmap (ihs ih.2 hrest hfs.2 hbs.2 hds.2)

/-- When the variables of all types of a tree are replaced, uses become uses of what is then recorded. -/
theorem Uses.map (e : Expr) : Mapping P P' τ e := by
  induction e with
  | absent =>
    intro d sc sc' h _ _ _
    cases h
    exact .absent
  | other kind =>
    intro d sc sc' h
    cases h
  | int value ty =>
    intro d sc sc' h _ _ _
    cases h
    exact .int
  | str value ty =>
    intro d sc sc' h _ _ _
    cases h
    exact .str
  | var name typeArgs ty =>
    intro d sc sc' h hsc _ _
    cases h with
    | @var _ _ _ _ _ t hP =>
      refine .var fun f' hf' => ?_
      have hrel := hsc name
      rw [hf'] at hrel
      generalize hf : sc name = o at hrel
      cases hrel with
      | some hc =>
        rw [mapPresent_subst]
        exact hc t (hP _ hf)
  | func params result body ty ih =>
    intro d sc sc' h hsc he hd
    cases h with
    | func hnames hbody =>
      refine .func ?_ (ih hbody (hsc.bindParams params) (Expr.every_func.mp he).2
        (Expr.every_func.mp hd).2)
      rw [List.map_map, ← hnames]
      rfl
  | call callee args ty ihf iha =>
    intro d sc sc' h hsc he hd
    cases h with
    | call hf has =>
      obtain ⟨_, hef, hea⟩ := Expr.every_call.mp he
      obtain ⟨_, hdf, hda⟩ := Expr.every_call.mp hd
      exact .call (ihf hf hsc hef hdf) (has.map iha hsc hea hda)
  | letIn name annot value body ty ihv ihb =>
    intro d sc sc' h hsc he hd
    cases h with
    | letIn hv hb =>
      obtain ⟨_, hev, heb⟩ := Expr.every_letIn.mp he
      obtain ⟨_, hdv, hdb⟩ := Expr.every_letIn.mp hd
      exact .letIn (ihv hv hsc hev hdv) (ihb hb (hsc.bind name .none) heb hdb)
  | group bs body ty ihf ihb =>
    intro d sc sc' h hsc he hd
    cases h with
    | @group _ _ ds fs _ _ _ _ hfs hb =>
      obtain ⟨heg, hef, heb⟩ := Expr.every_group.mp he
      obtain ⟨hdg, hdf, hdb⟩ := Expr.every_group.mp hd
      have hscope := hsc.bindGroup (hfs.carries heg hdg) bs
      exact .group (hfs.map ihf hscope (hfs.given_closed heg) hef hdf) (ihb hb hscope heb hdb)
  | array item items ty ih =>
    intro d sc sc' h hsc he hd
    cases h with
    | array hes =>
      exact .array (hes.map ih hsc (Expr.every_array.mp he).2 (Expr.every_array.mp hd).2)
  | seq effect value ty ihe ihv =>
    intro d sc sc' h hsc he hd
    cases h with
    | seq hf hv =>
      obtain ⟨_, hee, hev⟩ := Expr.every_seq.mp he
      obtain ⟨_, hde, hdv⟩ := Expr.every_seq.mp hd
      exact .seq (ihe hf hsc hee hde) (ihv hv hsc hev hdv)
  | block items ty ih =>
    intro d sc sc' h hsc he hd
    cases h with
    | block hes =>
      exact .block (hes.map ih hsc (Expr.every_block.mp he).2 (Expr.every_block.mp hd).2)

/-- Uses are kept when they are related more loosely, and names refer to other functions. -/
theorem Uses.mono {e d : Expr} (h : Uses P sc e d) (hP : ∀ f t, P f t → P' f t)
    (hsc : sc.Rel (fun f f' => ∀ t, P f t → P' f' t) sc') (he : e.GivesClosed) :
    Uses P' sc' e d := by
  have hcarries : ∀ f f', (∀ t, P f t → P' f' t) → Carries P P' .var f f' := by
    intro f f' hf t ht
    rw [Ty.subst_id]
    exact hf t ht
  have hmap := Uses.map e h (hsc.imp hcarries)
    (he.imp fun n hn g hg => ⟨hn g hg, hcarries _ _ (hP _)⟩) fun n _ g _ => hcarries _ _ ?_
  · rwa [Expr.mapTypes_id Ty.subst_id] at hmap
  · rw [Recorded.subst, Expr.mapScheme, mapPresent_subst, Ty.subst_id]
    exact hP _

end

end Polytype
