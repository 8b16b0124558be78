import Mathlib
import Polytype.Fault

/-!
# Computations that may fail

What it takes for a sequence of steps to give a result, and for the entries of an array to be read and
written.
-/

namespace Polytype

/-- Two steps give a result if the first one does and the second one does with it. -/
theorem bind_eq_ok {ε α β : Type} {x : Except ε α} {f : α → Except ε β} {b : β} :
    (x >>= f) = .ok b ↔ ∃ a, x = .ok a ∧ f a = .ok b := by
  cases x with
  | error e => exact iff_of_false nofun (by simp)
  | ok a =>
    constructor
    · exact fun h => ⟨a, rfl, h⟩
    · rintro ⟨_, ⟨⟩, h⟩
      exact h

/-- Two steps depend on what the second one does with the result of the first. -/
theorem bind_congr_ok {ε α β : Type} {x : Except ε α} {f g : α → Except ε β}
    (h : ∀ a, x = .ok a → f a = g a) : (x >>= f) = (x >>= g) := by
  cases x with
  | error e => rfl
  | ok a => exact h a rfl

theorem readAt_of_lt {α : Type} {a : Array α} {i : Nat} (h : i < a.size) (d : α) :
    readAt a i = .ok (a.getD i d) := by
  simp [readAt, h]

theorem writeAt_of_lt {α : Type} {a : Array α} {i : Nat} (h : i < a.size) (x : α) :
    writeAt a i x = .ok (a.setIfInBounds i x) := if_pos h

theorem getD_setIfInBounds {α : Type} {a : Array α} {i : Nat} (h : i < a.size) (x d : α) :
    (fun j => (a.setIfInBounds i x).getD j d) = Function.update (fun j => a.getD j d) i x := by
  funext j
  rw [Array.getD_eq_getD_getElem?, Array.getElem?_setIfInBounds, Function.update_apply]
  by_cases hij : i = j
  · subst hij
    simp [h]
  · simp [hij, Ne.symm hij]

end Polytype
