import Mathlib
import Polytype.NameSupply

/-!
# The supply of parameter names

Different indices have different names (`genericName_injective`), so a supply that tries one name more
than are blocked finds one that is not (`firstFree_not_mem`). Generated names are never those of the
literals' types.
-/

namespace Polytype

/-! ## Names of indices -/

theorem genericName_toList (i : Nat) :
    (genericName i).toList =
      Char.ofNat (65 + i % 26) :: if i < 26 then [] else Nat.toDigits 10 (i / 26) := by
  have hletter : (65 + (i : Int).tmod 26).toNat = 65 + i % 26 := by
    rw [show (i : Int).tmod 26 = ((i % 26 : Nat) : Int) from rfl]
    omega
  rw [genericName, hletter]
  by_cases hi : i < 26
  · rw [if_pos (by omega), if_pos hi, String.toList_singleton]
  · rw [if_neg (by omega), if_neg hi, String.toList_ofList]
    rfl

theorem letter_injective {a b : Nat} (ha : a < 26) (hb : b < 26)
    (h : Char.ofNat (65 + a) = Char.ofNat (65 + b)) : a = b := by
  have hall : ∀ a < 26, ∀ b < 26, Char.ofNat (65 + a) = Char.ofNat (65 + b) → a = b := by decide
  exact hall a ha b hb h

theorem toDigits_ten_injective {a b : Nat} (h : Nat.toDigits 10 a = Nat.toDigits 10 b) : a = b := by
  apply Nat.repr_injective
  rw [Nat.repr_eq_ofList_toDigits, Nat.repr_eq_ofList_toDigits, h]

/-- Different indices have different names. -/
theorem genericName_injective {i j : Nat} (h : genericName i = genericName j) : i = j := by
  have hlist := congrArg String.toList h
  rw [genericName_toList, genericName_toList, List.cons_eq_cons] at hlist
  obtain ⟨hletter, hrest⟩ := hlist
  have hmod : i % 26 = j % 26 :=
    letter_injective (Nat.mod_lt _ (by decide)) (Nat.mod_lt _ (by decide)) hletter
  by_cases hi : i < 26 <;> by_cases hj : j < 26
  · omega
  · rw [if_pos hi, if_neg hj] at hrest
    exact absurd hrest.symm Nat.toDigits_ne_nil
  · rw [if_neg hi, if_pos hj] at hrest
    exact absurd hrest Nat.toDigits_ne_nil
  · rw [if_neg hi, if_neg hj] at hrest
    have := toDigits_ten_injective hrest
    omega

/-- The second character of a name, if there is one, is a digit. -/
theorem genericName_ne {i : Nat} {c d : Char} {rest : List Char} (hd : d.isDigit = false) :
    genericName i ≠ String.ofList (c :: d :: rest) := by
  intro h
  have hlist := congrArg String.toList h
  rw [genericName_toList, String.toList_ofList, List.cons_eq_cons] at hlist
  by_cases hi : i < 26
  · rw [if_pos hi] at hlist
    cases hlist.2
  · rw [if_neg hi] at hlist
    have hmem : d ∈ Nat.toDigits 10 (i / 26) := by
      rw [hlist.2]
      exact List.mem_cons_self
    rw [Nat.isDigit_of_mem_toDigits (by decide) (by decide) hmem] at hd
    cases hd

theorem genericName_ne_int (i : Nat) : genericName i ≠ "Int" := genericName_ne (by decide)

theorem genericName_ne_string (i : Nat) : genericName i ≠ "String" := genericName_ne (by decide)

/-! ## Names that are free -/

namespace NameSupply

/-- The index that is found is not blocked, or all that were tried are. -/
theorem firstFree_spec (blocked : List String) (tries j : Nat) :
    genericName (firstFree blocked tries j : Nat) ∉ blocked ∨
      ∀ k, j ≤ k → k ≤ j + tries → genericName k ∈ blocked := by
  induction tries generalizing j with
  | zero =>
    rw [firstFree]
    by_cases hj : genericName j ∈ blocked
    · refine .inr fun k hle hlt => ?_
      obtain rfl : k = j := by omega
      exact hj
    · exact .inl hj
  | succ tries ih =>
    rw [firstFree]
    by_cases hj : genericName j ∈ blocked
    · rw [if_pos (by simpa using hj)]
      refine (ih (j + 1)).imp_right fun h k hle hlt => ?_
      rcases Nat.eq_or_lt_of_le hle with rfl | hlt'
      · exact hj
      · exact h k hlt' (by omega)
    · rw [if_neg (by simpa using hj)]
      exact .inl hj

theorem le_firstFree (blocked : List String) (tries j : Nat) : j ≤ firstFree blocked tries j := by
  induction tries generalizing j with
  | zero => rw [firstFree]
  | succ tries ih =>
    rw [firstFree]
    split
    · exact Nat.le_of_succ_le (ih (j + 1))
    · exact le_rfl

/-- No index is passed over whose name is free. -/
theorem mem_of_lt_firstFree {blocked : List String} {tries j k : Nat} (hj : j ≤ k)
    (hk : k < firstFree blocked tries j) : genericName k ∈ blocked := by
  induction tries generalizing j with
  | zero =>
    rw [firstFree] at hk
    omega
  | succ tries ih =>
    rw [firstFree] at hk
    by_cases hm : genericName j ∈ blocked
    · rw [if_pos (by simpa using hm)] at hk
      rcases Nat.eq_or_lt_of_le hj with rfl | hlt
      · exact hm
      · exact ih hlt hk
    · rw [if_neg (by simpa using hm)] at hk
      omega

/-- One try more than names are blocked is enough. -/
theorem firstFree_not_mem (blocked : List String) (j : Nat) :
    genericName (firstFree blocked blocked.length j : Nat) ∉ blocked := by
  rcases firstFree_spec blocked blocked.length j with h | hall
  · exact h
  · -- more different names than there are places in the list
    have hnodup : ((List.range (blocked.length + 1)).map fun k : Nat =>
        genericName ((j + k : Nat) : Int)).Nodup :=
      List.nodup_range.map fun a b hab => by
        have := genericName_injective hab
        omega
    have hsub : ((List.range (blocked.length + 1)).map fun k : Nat =>
        genericName ((j + k : Nat) : Int)) ⊆ blocked := by
      intro n hn
      obtain ⟨k, hk, rfl⟩ := List.mem_map.mp hn
      exact hall _ (by omega) (by have := List.mem_range.mp hk; omega)
    have hlen := (hnodup.subperm hsub).length_le
    rw [List.length_map, List.length_range] at hlen
    omega

/-- What a supply hands out: a name of its index or a later one that is neither set aside nor a
constructor of the type. -/
theorem takeAvoiding_spec (g : NameSupply) (t : Ty) :
    ∃ j : Nat, g.next ≤ j ∧ g.takeAvoiding t = (genericName j, { g with next := j + 1 }) ∧
      genericName j ∉ g.taken ∧ genericName j ∉ t.names := by
  refine ⟨_, le_firstFree (g.taken ++ t.names) _ _, rfl, ?_⟩
  have h := firstFree_not_mem (g.taken ++ t.names) g.next
  exact ⟨fun hm => h (List.mem_append_left _ hm), fun hm => h (List.mem_append_right _ hm)⟩

theorem taken_avoid (names : List String) (g : NameSupply) (n : String) :
    n ∈ (names.foldl avoid g).taken ↔ n ∈ names ∨ n ∈ g.taken := by
  induction names generalizing g with
  | nil => simp
  | cons m names ih =>
    rw [List.foldl_cons, ih]
    simp only [avoid, List.mem_cons]
    tauto

end NameSupply

end Polytype
