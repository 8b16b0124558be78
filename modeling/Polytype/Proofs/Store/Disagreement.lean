import Mathlib
import Polytype.Proofs.Store.Unification

/-!
# Where unification fails

Two types are gone through from left to right, and what was bound before the place of an error stays bound.
So the two types, resolved in the store that is left behind, agree up to that place, and the error describes
what stands there (`unify_error_at_first_difference`): two constructors that differ in name or number of
arguments, or a variable and a type that it occurs in, each on its own side.

The place is found along the rules of unification. A pair that was worked off resolves to one type; the
pair at which the rules stop fails at its root; and a pair of constructors fails where the first of its
pairs of arguments does that fails (`failsAt_con`).

Variables of other stores and missing types are refused wherever they are reached, even where both sides
are the same (`unify_refuses_same_type`). They are reached only if the two types or the slots hold them.
-/

namespace Polytype

namespace Ty

/-! ## Positions -/

/-- What stands at the root of a type. -/
inductive Head where
  | absent
  | var (id : Int)
  | con (name : String) (arity : Nat)
deriving DecidableEq

/-- The root of a type: a constructor and its number of arguments, a variable, or nothing. -/
def head : Ty → Head
  | absent => .absent
  | var id => .var id
  | con name args => .con name args.length

/-- The part of a type at a position, which is the list of the argument numbers on the way to it. The
order of lists is the pre-order of positions. -/
def part? : Ty → List Nat → Option Ty
  | t, [] => some t
  | con _ args, i :: p => args[i]?.bind (part? · p)
  | _, _ :: _ => none

@[simp] theorem part?_nil (t : Ty) : t.part? [] = some t := by
  cases t <;> rfl

@[simp] theorem part?_con (name : String) (args : List Ty) (i : Nat) (p : List Nat) :
    (con name args).part? (i :: p) = args[i]?.bind (part? · p) := rfl

/-- Two types agree before a position: each position before it has the same head in both, or is in none. -/
def AgreeBefore (a b : Ty) (p : List Nat) : Prop :=
  ∀ q < p, (a.part? q).map head = (b.part? q).map head

theorem agreeBefore_nil (a b : Ty) : AgreeBefore a b [] := fun q hq => absurd hq (List.not_lt_nil q)

/-- Constructors of one shape agree up to a position in an argument if the arguments before it are equal and
that argument agrees. -/
theorem AgreeBefore.con {name : String} {as bs : List Ty} (hlen : as.length = bs.length) {i : Nat}
    {a b : Ty} (ha : as[i]? = some a) (hb : bs[i]? = some b) (hbefore : ∀ j < i, as[j]? = bs[j]?)
    {p : List Nat} (h : AgreeBefore a b p) :
    AgreeBefore (.con name as) (.con name bs) (i :: p) := by
  intro q hq
  cases q with
  | nil => simp [head, hlen]
  | cons j q =>
    rw [part?_con, part?_con]
    rcases List.cons_lt_cons_iff.mp hq with hj | ⟨rfl, hqp⟩
    · rw [hbefore j hj]
    · rw [ha, hb]
      exact h q hqp

theorem Whole.part? {t u : Ty} {p : List Nat} (ht : t.Whole) (h : t.part? p = some u) : u.Whole := by
  induction p generalizing t with
  | nil =>
    rw [part?_nil] at h
    cases h
    exact ht
  | cons i p ih =>
    cases t with
    | absent => cases h
    | var id => cases h
    | con name args =>
      obtain ⟨a, ha, h⟩ := Option.bind_eq_some_iff.mp h
      exact ih ((whole_con name args).mp ht a (List.mem_of_getElem? ha)) h

end Ty

namespace Store

/-! ## Errors -/

/-- An error describes two parts that have no common instance: it holds the two constructors, which differ
in name or number of arguments, or the unbound variable on one side and the constructor on the other, in
which the variable occurs. -/
inductive Describes (s : Store) : UnifyError → Ty → Ty → Prop
  | mismatch {n m : String} {as bs : List Ty} : n ≠ m ∨ as.length ≠ bs.length →
      Describes s (.mismatch (.con n as) (.con m bs)) (.con n as) (.con m bs)
  | infiniteLeft {i : Int} {n : String} {as : List Ty} : s.owns i = true → s.binding? i = none →
      i ∈ (Ty.con n as).vars → Describes s (.infinite i (.con n as)) (.var i) (.con n as)
  | infiniteRight {i : Int} {n : String} {as : List Ty} : s.owns i = true → s.binding? i = none →
      i ∈ (Ty.con n as).vars → Describes s (.infinite i (.con n as)) (.con n as) (.var i)

/-- An error refuses one of two parts: it is a variable of another store, or missing. -/
inductive Refuses (s : Store) : UnifyError → Ty → Ty → Prop
  | foreignLeft {i : Int} {v : Ty} : s.owns i = false → Refuses s (.foreign i) (.var i) v
  | foreignRight {i : Int} {u : Ty} : s.owns i = false → Refuses s (.foreign i) u (.var i)
  | missing {u v : Ty} : u = .absent ∨ v = .absent → Refuses s (.mismatch u v) u v

theorem Describes.head_ne {s : Store} {e : UnifyError} {u v : Ty} (h : s.Describes e u v) :
    u.head ≠ v.head := by
  cases h with
  | mismatch hne =>
    intro heq
    cases Ty.Head.con.inj heq with
    | intro hn hl => exact hne.elim (· hn) (· hl)
  | infiniteLeft => exact nofun
  | infiniteRight => exact nofun

theorem resolve_of_not_owns {s : Store} {i : Int} (hi : s.owns i = false) :
    s.resolve (.var i) = .var i := by
  apply resolve_free
  by_contra hne
  obtain ⟨t, ht⟩ := Option.ne_none_iff_exists'.mp hne
  rw [owns_of_binding? ht] at hi
  cases hi

/-- The error of types that are stuck describes what they resolve to, or refuses it. -/
theorem Stuck.describes {s : Store} {a b : Ty} {e : UnifyError} (h : Stuck s a b e) :
    s.Describes e (s.resolve a) (s.resolve b) ∨ s.Refuses e (s.resolve a) (s.resolve b) := by
  cases h with
  | @clash n m as bs hshape =>
    have hne : n ≠ m ∨ as.length ≠ bs.length := by
      simpa [Ty.sameShape, imp_iff_not_or] using hshape
    rw [resolve_con, resolve_con]
    exact .inl (.mismatch (by simpa using hne))
  | @infinite _ _ i n as hp hi hb ho =>
    have hmem := occurs_iff.mp ho
    rw [resolve_con] at hmem ⊢
    cases hp with
    | left _ =>
      rw [resolve_free hb, resolve_con]
      exact .inl (.infiniteLeft hi hb hmem)
    | right =>
      rw [resolve_free hb, resolve_con]
      exact .inl (.infiniteRight hi hb hmem)
  | foreignLeft hi =>
    rw [resolve_of_not_owns hi]
    exact .inr (.foreignLeft hi)
  | foreignRight hj =>
    rw [resolve_of_not_owns hj]
    exact .inr (.foreignRight hj)
  | missing hm =>
    refine .inr (.missing (hm.imp ?_ ?_))
    · rintro rfl
      exact resolve_absent s
    · rintro rfl
      exact resolve_absent s

/-! ## The first place -/

/-- Two types fail at a position: they agree before it, and the error describes or refuses what stands
there. -/
structure FailsAt (s : Store) (e : UnifyError) (a b : Ty) (p : List Nat) (u v : Ty) : Prop where
  left : a.part? p = some u
  right : b.part? p = some v
  before : a.AgreeBefore b p
  error : s.Describes e u v ∨ s.Refuses e u v

/-- One of the pairs of types fails, when resolved, and those before it resolve to one type each. -/
inductive FirstFails (s : Store) (e : UnifyError) : List (Ty × Ty) → Prop
  | here {a b : Ty} {rest : List (Ty × Ty)} {p : List Nat} {u v : Ty} :
      s.FailsAt e (s.resolve a) (s.resolve b) p u v → FirstFails s e ((a, b) :: rest)
  | later {a b : Ty} {rest : List (Ty × Ty)} : s.resolve a = s.resolve b → FirstFails s e rest →
      FirstFails s e ((a, b) :: rest)

section

variable {s : Store} {e : UnifyError}

theorem firstFails_append {ws rest : List (Ty × Ty)} (h : FirstFails s e (ws ++ rest)) :
    FirstFails s e ws ∨ (∀ w ∈ ws, s.resolve w.1 = s.resolve w.2) ∧ FirstFails s e rest := by
  induction ws with
  | nil => exact .inr ⟨by simp, h⟩
  | cons w ws ih =>
    cases h with
    | here hf => exact .inl (.here hf)
    | later heq hrest =>
      rcases ih hrest with hws | ⟨hall, hrest⟩
      · exact .inl (.later heq hws)
      · exact .inr ⟨List.forall_mem_cons.mpr ⟨heq, hall⟩, hrest⟩

/-- The first of some pairs of arguments that fails, by its number. -/
theorem FirstFails.argument {as bs : List Ty} (h : FirstFails s e (as.zip bs)) :
    ∃ (i : Nat) (a b : Ty) (p : List Nat) (u v : Ty), as[i]? = some a ∧ bs[i]? = some b ∧
      s.FailsAt e (s.resolve a) (s.resolve b) p u v ∧
      ∀ j < i, (as.map s.resolve)[j]? = (bs.map s.resolve)[j]? := by
  induction as generalizing bs with
  | nil => cases h
  | cons a as ih =>
    cases bs with
    | nil => cases h
    | cons b bs =>
      cases h with
      | @here _ _ _ p u v hf => exact ⟨0, a, b, p, u, v, rfl, rfl, hf, fun j hj => by omega⟩
      | later heq hrest =>
        obtain ⟨i, a', b', p, u, v, ha, hb, hf, hbefore⟩ := ih hrest
        refine ⟨i + 1, a', b', p, u, v, ha, hb, hf, fun j hj => ?_⟩
        cases j with
        | zero => simp [heq]
        | succ j => simpa using hbefore j (by omega)

/-- Constructors of one shape fail where the first of their pairs of arguments that fails does. -/
theorem failsAt_con {n : String} {as bs : List Ty} (hlen : as.length = bs.length)
    (h : FirstFails s e (as.zip bs)) :
    ∃ p u v, s.FailsAt e (s.resolve (.con n as)) (s.resolve (.con n bs)) p u v := by
  obtain ⟨i, a, b, p, u, v, ha, hb, hf, hbefore⟩ := h.argument
  have hra : (as.map s.resolve)[i]? = some (s.resolve a) := by simp [ha]
  have hrb : (bs.map s.resolve)[i]? = some (s.resolve b) := by simp [hb]
  rw [resolve_con, resolve_con]
  refine ⟨i :: p, u, v, ?_, ?_, .con (by simpa using hlen) hra hrb hbefore hf.before, hf.error⟩
  · rw [Ty.part?_con, hra]
    exact hf.left
  · rw [Ty.part?_con, hrb]
    exact hf.right

end

/-- When the rules stop with an error, one of the pairs fails and those before it were made equal, both
as the last store resolves them. -/
theorem Unifying.firstFails {ws : List (Ty × Ty)} {s : Store} {r : Unified} (h : Unifying ws s r)
    (hs : s.Acyclic) {e : UnifyError} (he : r.2 = some e) : FirstFails r.1 e ws := by
  induction h with
  | done => cases he
  | @descend n as bs rest s r hlen _ ih =>
    -- either an argument fails, or all of them were made equal and with them the two types
    rcases firstFails_append (ih hs he) with hargs | ⟨hall, hrest⟩
    · obtain ⟨p, u, v, hf⟩ := failsAt_con hlen hargs
      exact .here hf
    · refine .later ?_ hrest
      obtain ⟨σ, hσ⟩ : ∃ σ, r.1.resolve = Ty.subst σ := ⟨_, funext (resolve_eq_subst r.1)⟩
      rw [hσ] at hall
      rw [resolve_con, resolve_con, hσ, (forall_zip_iff hlen).mp hall]
  | @chase a b rest s r hu ih =>
    -- the ends of two chains resolve to what their beginnings resolve to
    obtain ⟨hext, hacyclic⟩ := hu.acyclic hs
    have hfind : ∀ t, r.1.resolve (s.find t) = r.1.resolve t := by
      intro t
      rw [resolve_eq_subst, resolve_eq_subst _ t]
      exact subst_find hs (hext.solvedBy (solvedBy_resolve_var hacyclic)) t
    cases ih hs he with
    | here hf =>
      rw [hfind, hfind] at hf
      exact .here hf
    | later heq hrest =>
      rw [hfind, hfind] at heq
      exact .later heq hrest
  | same _ ih => exact .later rfl (ih hs he)
  | @bind a b t i rest s r hp hi hb ho hu ih =>
    have hs' := hs.bind_of_occurs hi hb ho
    obtain ⟨hext, hacyclic⟩ := hu.acyclic hs'
    -- the binding makes the pair equal, and no later step takes it back
    have hsolved := hext.solvedBy (solvedBy_resolve_var hacyclic)
    refine .later ?_ (ih hs' he)
    rw [resolve_eq_subst, resolve_eq_subst _ b]
    exact (hp.subst_iff _).mp ((solvedBy_bind hi hb hp.ne).mp hsolved).2
  | stop hstuck =>
    cases he
    exact .here ⟨Ty.part?_nil _, Ty.part?_nil _, Ty.agreeBefore_nil _ _, hstuck.describes⟩

/-- A unification error describes the first disagreement. Let unification fail in an acyclic store, and
resolve both types in the store that it leaves behind. There is a position before which they agree. The
heads there differ, and the error describes the two parts that stand there, the left one first; or it
refuses one of them, which happens only if the two types or the slots have missing parts or variables of
other stores. -/
theorem unify_error_at_first_difference {s s' : Store} {a b : Ty} {e : UnifyError} (hs : s.Acyclic)
    (h : s.unify a b = (s', some e)) :
    ∃ p u v, (s'.resolve a).part? p = some u ∧ (s'.resolve b).part? p = some v ∧
      (s'.resolve a).AgreeBefore (s'.resolve b) p ∧
      (u.head ≠ v.head ∧ s'.Describes e u v ∨
        s'.Refuses e u v ∧ ¬ (s.Over .whole ∧ a.Over .whole s.size ∧ b.Over .whole s.size)) := by
  have hfails := (unify_unifying hs a b).firstFails hs (congrArg Prod.snd h)
  have hacyclic := unify_acyclic hs a b
  have hsize := (unify_extends hs a b).size
  rw [h] at hfails hacyclic hsize
  cases hfails with
  | later _ hrest => cases hrest
  | @here _ _ _ p u v hf =>
    refine ⟨p, u, v, hf.left, hf.right, hf.before, hf.error.imp ?_ ?_⟩
    · exact fun hd => ⟨hd.head_ne, hd⟩
    · refine fun href => ⟨href, fun ⟨ho, ha, hb⟩ => ?_⟩
      have hover := unify_over hs ho ha hb
      have hforeign := unify_ne_foreign not_false hs ho ha hb
      rw [h] at hover hforeign
      cases href with
      | foreignLeft _ => exact hforeign _ rfl
      | foreignRight _ => exact hforeign _ rfl
      | missing hm =>
        have hwhole : ∀ {t}, t.Over .whole s.size → (s'.resolve t).Whole := by
          intro t ht
          rw [← hsize] at ht
          exact (hover.resolve hacyclic ht).whole not_false
        rcases hm with rfl | rfl
        · exact Ty.not_whole_absent ((hwhole ha).part? hf.left)
        · exact Ty.not_whole_absent ((hwhole hb).part? hf.right)

/-- The first pair binds `'_2` to `Int`, and the second binds `'_1` below the array that `'_0` is bound to;
the third is then refused for what `'_1` has become. -/
theorem unify_error_at_first_difference_linked :
    linked.unify (.function [.var 2, .var 0] (.var 1)) (.function [.int, .array (.var 2)] .string) =
      (⟨#[.array (.var 1), .int, .int]⟩, some (.mismatch .int .string)) ∧
    ∃ p u v, (Ty.function [.int, .array .int] .int).part? p = some u ∧
      (Ty.function [.int, .array .int] .string).part? p = some v ∧
      (Ty.function [.int, .array .int] .int).AgreeBefore (.function [.int, .array .int] .string) p ∧
      u.head ≠ v.head ∧ Describes ⟨#[.array (.var 1), .int, .int]⟩ (.mismatch .int .string) u v := by
  have hs : linked.Acyclic := unify_acyclic (acyclic_empty.freshList 3) _ _
  have h : linked.unify (.function [.var 2, .var 0] (.var 1))
      (.function [.int, .array (.var 2)] .string) =
      (⟨#[.array (.var 1), .int, .int]⟩, some (.mismatch .int .string)) := by rfl
  obtain ⟨p, u, v, hu, hv, hbefore, ⟨hne, hd⟩ | ⟨href, _⟩⟩ := unify_error_at_first_difference hs h
  · exact ⟨h, p, u, v, hu, hv, hbefore, hne, hd⟩
  · cases href with
    | missing hm => exact absurd hm (by simp [Ty.int, Ty.string])

/-- A store with one variable, which is bound to a type. -/
def holding (t : Ty) : Store := (empty.fresh.2.unify (.var 0) t).1

theorem acyclic_holding (t : Ty) : (holding t).Acyclic := unify_acyclic acyclic_empty.fresh _ t

theorem over_holding (t : Ty) : (Ty.var 0).Over .whole (holding t).size := by
  rw [holding, (unify_extends acyclic_empty.fresh _ t).size, size_fresh]
  exact .var le_rfl (by decide)

/-- A variable that is bound to a type with a missing part, or with the variable of another store, is not
unified with itself, and the error describes no disagreement. -/
theorem unify_refuses_same_type :
    ((holding (.array .absent)).Acyclic ∧ (Ty.var 0).Over .whole (holding (.array .absent)).size ∧
      (holding (.array .absent)).unify (.var 0) (.var 0) =
        (holding (.array .absent), some (.mismatch .absent .absent)) ∧
      ∀ u v, ¬ (holding (.array .absent)).Describes (.mismatch .absent .absent) u v) ∧
    ((holding (.array (.var 7))).Acyclic ∧ (Ty.var 0).Over .whole (holding (.array (.var 7))).size ∧
      (holding (.array (.var 7))).unify (.var 0) (.var 0) =
        (holding (.array (.var 7)), some (.foreign 7)) ∧
      ∀ u v, ¬ (holding (.array (.var 7))).Describes (.foreign 7) u v) := by
  constructor
  · exact ⟨acyclic_holding _, over_holding _, by decide, nofun⟩
  · exact ⟨acyclic_holding _, over_holding _, by decide, nofun⟩

end Store

end Polytype
