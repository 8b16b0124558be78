import Mathlib
import Polytype.Proofs.Document.Comparison
import Polytype.Yaml.Tag

/-!
# The order of fields

A document may list the fields of its mappings in any order. `Reordered n n'` says that two trees differ
in that order only, at any depth and also behind aliases, and in the marks of their nodes, which move with
the fields. Such trees describe the same expression, or none (`ofNode_reordered`).
-/

namespace Polytype

open Polytype.Yaml (Node Entry Mark Style Scalars)

namespace Document

mutual

/-- Trees that differ in the order of the entries of mappings, and in marks. -/
inductive Reordered : Node → Node → Prop
  | scalar {mark mark' : Mark} {style : Style} {tag value : String} :
      Reordered (.scalar mark style tag value) (.scalar mark' style tag value)
  | sequence {mark mark' : Mark} {items items' : List Node} :
      List.Forall₂ Reordered items items' → Reordered (.sequence mark items) (.sequence mark' items')
  | mapping {mark mark' : Mark} {entries mid entries' : List Entry} :
      entries.Perm mid → List.Forall₂ ReorderedEntry mid entries' →
      Reordered (.mapping mark entries) (.mapping mark' entries')
  | reference {mark mark' : Mark} {target target' : Node} :
      Reordered target target' → Reordered (.reference mark target) (.reference mark' target')

/-- Entries whose keys and values differ in this way. -/
inductive ReorderedEntry : Entry → Entry → Prop
  | mk {key key' value value' : Node} : Reordered key key' → Reordered value value' →
      ReorderedEntry (.mk key value) (.mk key' value')

end

theorem ReorderedEntry.sameField {entry entry' : Entry} (h : ReorderedEntry entry entry') :
    SameField (fun _ => Reordered) entry entry' := by
  obtain ⟨hkey, hvalue⟩ := h
  intro name hname
  cases hkey with
  | scalar => exact ⟨hname, hvalue⟩
  | _ => cases hname

theorem ReorderedEntry.sameField_flip {entry entry' : Entry} (h : ReorderedEntry entry entry') :
    SameField (fun _ => flip Reordered) entry' entry := by
  obtain ⟨hkey, hvalue⟩ := h
  intro name hname
  cases hkey with
  | scalar => exact ⟨hname, hvalue⟩
  | _ => cases hname

theorem Reordered.corresponds {entries mid entries' : List Entry} (hperm : entries.Perm mid)
    (h : List.Forall₂ ReorderedEntry mid entries') :
    Corresponds (fun _ => Reordered) entries entries' :=
  .of_perm hperm (h.imp fun _ _ => ReorderedEntry.sameField)

theorem Reordered.corresponds_flip {entries mid entries' : List Entry} (hperm : entries.Perm mid)
    (h : List.Forall₂ ReorderedEntry mid entries') :
    Corresponds (fun _ => flip Reordered) entries' entries := by
  obtain ⟨other, hother, hperm'⟩ := List.perm_comp_forall₂ hperm h
  refine .of_perm hperm'.symm (List.Forall₂.flip (hother.imp fun _ _ => ?_))
  exact ReorderedEntry.sameField_flip

theorem Reordered.comparison : Comparison fun _ => Reordered where
  scalar := by
    rintro _ _ _ _ _ _ - ⟨⟩
    exact ⟨_, rfl⟩
  sequence := by
    rintro _ _ _ _ - (_ | hitems)
    exact ⟨_, _, rfl, hitems⟩
  mapping := by
    rintro _ _ _ (_ | _ | ⟨hperm, hentries⟩)
    exact ⟨_, _, rfl, corresponds hperm hentries⟩

theorem Reordered.comparison_flip : Comparison fun _ => flip Reordered where
  scalar := by
    rintro _ _ _ _ _ _ - ⟨⟩
    exact ⟨_, rfl⟩
  sequence := by
    rintro _ _ _ _ - (_ | hitems)
    exact ⟨_, _, rfl, List.Forall₂.flip hitems⟩
  mapping := by
    rintro _ _ _ (_ | _ | ⟨hperm, hentries⟩)
    exact ⟨_, _, rfl, corresponds_flip hperm hentries⟩

theorem Reordered.alike {n n' : Node} (h : Reordered n n') : Alike (fun _ => Reordered) n n' := by
  cases h with
  | scalar => exact .scalar
  | sequence => exact .sequence
  | mapping hperm hentries => exact .mapping (corresponds hperm hentries)
  | reference h => exact .reference h

theorem Reordered.alike_flip {n n' : Node} (h : Reordered n n') :
    Alike (fun _ => flip Reordered) n' n := by
  cases h with
  | scalar => exact .scalar
  | sequence => exact .sequence
  | mapping hperm hentries => exact .mapping (corresponds_flip hperm hentries)
  | reference h => exact .reference h

end Document

open Document in
/-- The order of fields does not matter: of two trees that differ in it, either both describe the same
expression or both are refused. -/
theorem ofNode_reordered [Scalars] {n n' : Node} (h : Reordered n n') (e : Expr) :
    Expr.ofNode n = .ok e ↔ Expr.ofNode n' = .ok e := by
  constructor
  · exact carries_ofNode Reordered.comparison (fun _ _ => Reordered.alike) n n' e h
  · exact carries_ofNode Reordered.comparison_flip (fun _ _ => Reordered.alike_flip) n' n e h

/-- The call of a function, with the fields in the opposite order in the call and in the function. -/
theorem ofNode_reordered_nested :
    let text (column : Nat) (s : String) : Node := .scalar ⟨1, column⟩ .plain "!!str" s
    let number : Node := .sequence ⟨1, 9⟩ [.scalar ⟨1, 10⟩ .plain "!!int" "1"]
    let params : Node := .sequence ⟨1, 30⟩ [text 31 "x"]
    let n : Node := .mapping ⟨1, 1⟩ [.mk (text 2 "args") number, .mk (text 15 "call")
      (.mapping ⟨1, 20⟩ [.mk (text 21 "body") (text 25 "x"), .mk (text 28 "fn") params])]
    let n' : Node := .mapping ⟨1, 1⟩ [.mk (text 2 "call")
      (.mapping ⟨1, 20⟩ [.mk (text 28 "fn") params, .mk (text 21 "body") (text 25 "x")]),
      .mk (text 15 "args") number]
    let e : Expr := .call (.func [⟨"x", .absent⟩] .absent (.var "x" none .absent) .absent)
      [.int 1 .absent] .absent
    Document.Reordered n n' ∧ Expr.ofNode n = .ok e ∧ Expr.ofNode n' = .ok e := by
  intro text number params n n' e
  have hnumber : Document.Reordered number number := .sequence (.cons .scalar .nil)
  have hparams : Document.Reordered params params := .sequence (.cons .scalar .nil)
  have h : Document.Reordered n n' :=
    .mapping (.swap ..) (.cons
      (.mk .scalar (.mapping (.swap ..) (.cons (.mk .scalar hparams) (.cons (.mk .scalar .scalar) .nil))))
      (.cons (.mk .scalar hnumber) .nil))
  have hread : Expr.ofNode n = .ok e := by cbv
  exact ⟨h, hread, (ofNode_reordered h e).mp hread⟩

end Polytype
