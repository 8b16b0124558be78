import Mathlib
import Polytype.Ty.Parser
import Polytype.Proofs.Ty.Vocabulary

/-!
# Types that are read

A type annotation has no variables, and no part of it is missing: the reader of types keeps this true of
the arguments of all constructors that are still open.
-/

namespace Polytype

/-- A type without variables in which nothing is missing. -/
def Ty.Written (t : Ty) : Prop := t.Over .whole 0

theorem Ty.Written.con {name : String} {args : List Ty} (h : ∀ a ∈ args, a.Written) :
    (Ty.con name args).Written := by
  by_cases hne : args = []
  · subst hne
    exact .const trivial
  · exact Ty.Over.con hne h

/-- Induction over written types, which are constructors throughout. -/
theorem Ty.Written.induct {motive : Ty → Prop}
    (con : ∀ name args, (∀ a ∈ args, a.Written ∧ motive a) → motive (.con name args)) {t : Ty}
    (h : t.Written) : motive t := by
  induction t with
  | absent => exact absurd (h.whole fun hg => hg) not_whole_absent
  | var id =>
    have hid := h.vars (fun hs => hs) id (by simp)
    omega
  | con name args ih => exact con name args fun a ha => ⟨h.arg ha, ih a ha (h.arg ha)⟩

namespace Reader

/-- All types that a reader has in hand are written ones. -/
structure Clean (r : Reader) : Prop where
  closed : ∀ t, r.phase = .closed t → t.Written
  frames : ∀ f ∈ r.frames, ∀ a ∈ f.args, a.Written

theorem clean_start : start.Clean := ⟨by simp [start], by simp [start]⟩

theorem settle_clean {t : Ty} {frames : List Frame} {c : Char} {r : Reader} (ht : t.Written)
    (hf : ∀ f ∈ frames, ∀ a ∈ f.args, a.Written) (h : settle t frames c = some r) : r.Clean := by
  cases frames with
  | nil => simp [settle] at h
  | cons frame outer =>
    rw [List.forall_mem_cons] at hf
    have hargs : ∀ a ∈ t :: frame.args, a.Written := List.forall_mem_cons.mpr ⟨ht, hf.1⟩
    rw [settle] at h
    split_ifs at h with hcomma hclose
    · cases h
      exact ⟨by simp, List.forall_mem_cons.mpr ⟨hargs, hf.2⟩⟩
    · cases h
      refine ⟨?_, hf.2⟩
      rintro _ ⟨⟩
      exact .con fun a ha => hargs a (List.mem_reverse.mp ha)

theorem step_clean {r r' : Reader} {t : Token} (hr : r.Clean) (h : r.step t = some r') : r'.Clean := by
  obtain ⟨phase, frames⟩ := r
  cases phase with
  | want =>
    cases t with
    | ident name =>
      cases h
      exact ⟨by simp, hr.frames⟩
    | mark c => cases h
  | named name =>
    cases t with
    | ident other => cases h
    | mark c =>
      simp only [step] at h
      split_ifs at h with hopen
      · cases h
        exact ⟨by simp, List.forall_mem_cons.mpr ⟨by simp, hr.frames⟩⟩
      · exact settle_clean (.con (by simp)) hr.frames h
  | closed u =>
    cases t with
    | ident name => cases h
    | mark c => exact settle_clean (hr.closed u rfl) hr.frames h

theorem result_written {r : Reader} {t : Ty} (hr : r.Clean) (h : r.result? = some t) : t.Written := by
  obtain ⟨phase, frames⟩ := r
  cases frames with
  | cons f fs => cases phase <;> cases h
  | nil =>
    cases phase with
    | want => cases h
    | named name =>
      cases h
      exact .con (by simp)
    | closed u =>
      cases h
      exact hr.closed t rfl

theorem run_written {tokens : Tokens} {r : Reader} {t : Ty} (hr : r.Clean)
    (h : r.run tokens = .ok t) : t.Written := by
  induction tokens generalizing r with
  | token tok column rest ih =>
    rw [run] at h
    cases hs : r.step tok with
    | none =>
      rw [hs] at h
      cases h
    | some r' =>
      rw [hs] at h
      exact ih (step_clean hr hs) h
  | finish column =>
    rw [run] at h
    cases hres : r.result? with
    | none =>
      rw [hres] at h
      cases h
    | some u =>
      rw [hres] at h
      cases h
      exact result_written hr hres
  | fault f column => cases h

end Reader

/-- What is read as a type is a written one. -/
theorem Ty.parse_written {source : Text.Source} {t : Ty} (h : Ty.parse source = .ok t) : t.Written :=
  Reader.run_written Reader.clean_start h

namespace Scheme

theorem map_run_written {tokens : Tokens} {make : Ty → Scheme} {g : Scheme}
    (hmake : ∀ t, (make t).body = t) (h : (Reader.start.run tokens).map make = .ok g) :
    g.body.Written := by
  cases hr : Reader.start.run tokens with
  | error e =>
    rw [hr] at h
    cases h
  | ok t =>
    rw [hr] at h
    cases h
    rw [hmake]
    exact Reader.run_written Reader.clean_start hr

theorem parseParams_written {before : List String} {tokens : Tokens} {g : Scheme}
    (h : parseParams before tokens = .ok g) : g.body.Written := by
  fun_induction parseParams before tokens with
  | case2 before name column column' rest hd ih => exact ih h
  | case3 before name column column' rest hd hne => exact map_run_written (fun _ => rfl) h
  | _ => cases h

/-- What is read as a generic type has a written type under its parameters. -/
theorem parse_written {source : Text.Source} {g : Scheme} (h : Scheme.parse source = .ok g) :
    g.body.Written := by
  rw [Scheme.parse] at h
  split at h
  · exact parseParams_written h
  · exact map_run_written (fun _ => rfl) h

end Scheme

end Polytype
