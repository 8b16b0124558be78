import Mathlib

/-!
# Recursion without a bound

A recursion is given by its step: what is returned for an argument, given what is returned for others.
`unbounded step` is the function that calls itself as often as it needs. It returns nothing where no number of
nested calls is enough.

A step looks at finitely many results of other calls. For such a *finitary* step the function satisfies its
equation (`unbounded_eq`). What each step keeps holds of all results, whether the recursion always ends or
not (`unbounded_induct`).
-/

namespace Polytype

section

variable {α β γ δ : Type}

/-- Whatever the first function returns, the second returns too. -/
def Below (f g : α → Option β) : Prop := ∀ a b, f a = some b → g a = some b

theorem Below.chain {f : Nat → α → Option β} (h : ∀ n, Below (f n) (f (n + 1))) {m n : Nat}
    (hmn : m ≤ n) : Below (f m) (f n) := by
  induction hmn with
  | refl => exact fun _ _ hab => hab
  | step _ ih => exact fun a b hab => h _ a b (ih a b hab)

/-! ## Nested calls -/

/-- What a recursion returns within a number of nested calls. -/
def nested (step : (α → Option β) → α → Option β) : Nat → α → Option β
  | 0 => fun _ => none
  | n + 1 => step (nested step n)

open Classical in
/-- What a recursion returns, however many calls that takes. -/
noncomputable def unbounded (step : (α → Option β) → α → Option β) (a : α) : Option β :=
  if h : ∃ b n, nested step n a = some b then some h.choose else none

theorem exists_nested {step : (α → Option β) → α → Option β} {a : α} {b : β}
    (h : unbounded step a = some b) : ∃ n, nested step n a = some b := by
  rw [unbounded] at h
  split at h
  · rename_i hex
    cases h
    exact hex.choose_spec
  · cases h

/-- What holds of the results of a step if it holds of those it uses, holds of all results. -/
theorem unbounded_induct {step : (α → Option β) → α → Option β} {motive : α → β → Prop}
    (hstep : ∀ self, (∀ a b, self a = some b → motive a b) → ∀ a b, step self a = some b → motive a b)
    {a : α} {b : β} (h : unbounded step a = some b) : motive a b := by
  have hnested : ∀ n a b, nested step n a = some b → motive a b := by
    intro n
    induction n with
    | zero => exact fun a b hab => by cases hab
    | succ n ih => exact hstep (nested step n) ih
  obtain ⟨n, hn⟩ := exists_nested h
  exact hnested n a b hn

/-! ## Finitary steps -/

/-- What is computed from a function uses finitely many of its results: it is there already for a function
that returns enough of them. -/
structure Finitary (F : (α → Option β) → Option γ) : Prop where
  mono : ∀ f g, Below f g → ∀ c, F f = some c → F g = some c
  enough : ∀ (f : Nat → α → Option β) (g : α → Option β), (∀ n, Below (f n) (f (n + 1))) →
    (∀ a b, g a = some b → ∃ n, f n a = some b) → ∀ c, F g = some c → ∃ n, F (f n) = some c

namespace Finitary

theorem const (r : Option γ) : Finitary fun _ : α → Option β => r :=
  ⟨fun _ _ _ _ h => h, fun _ _ _ _ _ h => ⟨0, h⟩⟩

theorem call (a : α) : Finitary fun f : α → Option β => f a :=
  ⟨fun _ _ hfg b h => hfg a b h, fun _ _ _ hg b h => hg a b h⟩

theorem bind {F : (α → Option β) → Option γ} {G : γ → (α → Option β) → Option δ} (hF : Finitary F)
    (hG : ∀ c, Finitary (G c)) : Finitary fun f => F f >>= fun c => G c f := by
  refine ⟨fun f g hfg d h => ?_, fun f g hf hg d h => ?_⟩
  · obtain ⟨c, hc, hd⟩ := Option.bind_eq_some_iff.mp h
    exact Option.bind_eq_some_iff.mpr ⟨c, hF.mono f g hfg c hc, (hG c).mono f g hfg d hd⟩
  · obtain ⟨c, hc, hd⟩ := Option.bind_eq_some_iff.mp h
    obtain ⟨m, hm⟩ := hF.enough f g hf hg c hc
    obtain ⟨n, hn⟩ := (hG c).enough f g hf hg d hd
    refine ⟨max m n, Option.bind_eq_some_iff.mpr ⟨c, ?_, ?_⟩⟩
    · exact hF.mono _ _ (Below.chain hf (le_max_left m n)) c hm
    · exact (hG c).mono _ _ (Below.chain hf (le_max_right m n)) d hn

theorem mapM (as : List α) : Finitary fun f : α → Option β => as.mapM f := by
  induction as with
  | nil => exact const (some [])
  | cons a as ih =>
    simp only [List.mapM_cons]
    exact (call a).bind fun b => ih.bind fun bs => const (some (b :: bs))

theorem anyM (as : List α) : Finitary fun f : α → Option Bool => as.anyM f := by
  induction as with
  | nil => exact const (some false)
  | cons a as ih =>
    simp only [List.anyM_cons]
    refine (call a).bind fun b => ?_
    cases b with
    | true => exact const (some true)
    | false => exact ih

theorem foldlM {ι : Type} {arg : β → ι → α} (is : List ι) (b : β) :
    Finitary fun f : α → Option β => is.foldlM (fun b i => f (arg b i)) b := by
  induction is generalizing b with
  | nil => exact const (some b)
  | cons i is ih =>
    simp only [List.foldlM_cons]
    exact (call (arg b i)).bind ih

end Finitary

/-! ## The equation of a recursion -/

section

variable {step : (α → Option β) → α → Option β} (h : ∀ a, Finitary fun self => step self a)

include h

theorem nested_below (n : Nat) : Below (nested step n) (nested step (n + 1)) := by
  induction n with
  | zero => exact fun a b hab => by cases hab
  | succ n ih => exact fun a b hab => (h a).mono _ _ ih b hab

theorem unbounded_of_nested {n : Nat} {a : α} {b : β} (hn : nested step n a = some b) :
    unbounded step a = some b := by
  have hex : ∃ b n, nested step n a = some b := ⟨b, n, hn⟩
  rw [unbounded, dif_pos hex]
  obtain ⟨m, hm⟩ := hex.choose_spec
  have hb := Below.chain (nested_below h) (le_max_left n m) a b hn
  have hc := Below.chain (nested_below h) (le_max_right n m) a _ hm
  exact hc.symm.trans hb

/-- The function of a finitary step satisfies its equation. -/
theorem unbounded_eq (a : α) : unbounded step a = step (unbounded step) a := by
  refine Option.ext fun b => ⟨fun hb => ?_, fun hb => ?_⟩
  · obtain ⟨n, hn⟩ := exists_nested hb
    cases n with
    | zero => cases hn
    | succ n => exact (h a).mono _ _ (fun _ _ => unbounded_of_nested h) b hn
  · obtain ⟨n, hn⟩ := (h a).enough (nested step) _ (nested_below h) (fun _ _ => exists_nested) b hb
    exact unbounded_of_nested h (n := n + 1) hn

end

end

end Polytype
