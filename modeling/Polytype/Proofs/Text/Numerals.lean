import Mathlib
import Polytype.Yaml.Tag

/-!
# Reading decimal numerals

A decimal numeral is read back as its number, by the rules of a base (`digits?_naturalChars`), by those
for integers with a sign and a base of their own (`signed?_integerChars`), and as a plain scalar of a
document (`Yaml.Scalars.standard_readsNumerals`).

The rules for scalars look at the first characters. A numeral must not be taken for octal digits, and it
is not one of the words with a fixed meaning: each of them has a character that no numeral has.
-/

namespace Polytype.Text

/-! ## Digits -/

theorem digitValue?_ten {c : Char} (h : c.isDigit) : digitValue? 10 c = some (c.toNat - '0'.toNat) := by
  have hlt : c.toNat - '0'.toNat < 10 := by
    have hrange : 48 ≤ c.toNat ∧ c.toNat ≤ 57 := Char.isDigit_iff_toNat.mp h
    show c.toNat - 48 < 10
    omega
  rw [digitValue?, if_pos h]
  exact Option.filter_eq_some_iff.mpr ⟨rfl, decide_eq_true hlt⟩

theorem digitsFrom?_ten {cs : List Char} (h : ∀ c ∈ cs, c.isDigit) (acc : Nat) :
    digitsFrom? 10 acc cs = some (Nat.ofDigitChars 10 cs acc) := by
  induction cs generalizing acc with
  | nil => rfl
  | cons c cs ih =>
    rw [List.forall_mem_cons] at h
    rw [digitsFrom?, digitValue?_ten h.1, Nat.ofDigitChars_cons, Nat.mul_comm 10 acc]
    exact ih h.2 _

theorem isDigit_of_mem_naturalChars {n : Nat} {c : Char} (h : c ∈ naturalChars n) : c.isDigit :=
  Nat.isDigit_of_mem_toDigits (by decide) (by decide) h

theorem digits?_naturalChars (n : Nat) : digits? 10 (naturalChars n) = some n := by
  rw [digits?]
  · rw [digitsFrom?_ten fun c => isDigit_of_mem_naturalChars, naturalChars,
      Nat.ofDigitChars_ten_toDigits]
  · exact Nat.toDigits_ne_nil

/-- Only zero has a numeral that starts with a zero. -/
theorem head?_naturalChars {n : Nat} (h : (naturalChars n).head? = some '0') : n = 0 := by
  induction n using Nat.strongRecOn with
  | ind n ih =>
    rw [naturalChars, Nat.toDigits_eq_if (by decide)] at h
    split_ifs at h with hlt
    · interval_cases n <;> first | rfl | exact absurd h (by decide)
    · rw [List.head?_append_of_ne_nil _ Nat.toDigits_ne_nil] at h
      have := ih (n / 10) (by omega) h
      omega

theorem basedDigits?_naturalChars (n : Nat) : basedDigits? (naturalChars n) = some n := by
  by_cases hn : n = 0
  · rw [hn]
    rfl
  · -- The rules for other bases are for digits after a zero.
    have hhead : ∀ cs, naturalChars n ≠ '0' :: cs := by
      intro cs hcs
      exact hn (head?_naturalChars (by rw [hcs, List.head?_cons]))
    rw [basedDigits?, digits?_naturalChars]
    · exact hhead _
    · exact fun c => hhead _
    · exact fun c rest => hhead _

theorem signed?_integerChars (n : Int) : signed? basedDigits? (integerChars n) = some n := by
  cases n with
  | ofNat n =>
    rw [integerChars, signed?, basedDigits?_naturalChars]
    · rfl
    · intro rest hrest
      exact absurd (isDigit_of_mem_naturalChars (hrest ▸ List.mem_cons_self)) (by decide)
    · intro rest hrest
      exact absurd (isDigit_of_mem_naturalChars (hrest ▸ List.mem_cons_self)) (by decide)
  | negSucc n =>
    rw [integerChars, signed?, basedDigits?_naturalChars]
    rfl

end Polytype.Text

namespace Polytype.Yaml

open Polytype.Text

/-! ## Scalars -/

/-- A character of a numeral. -/
def isNumeral (c : Char) : Bool := c.isDigit || c = '-'

theorem isNumeral_of_mem_integerChars {n : Int} {c : Char} (h : c ∈ integerChars n) : isNumeral c := by
  cases n with
  | ofNat n => simp [isNumeral, isDigit_of_mem_naturalChars h]
  | negSucc n =>
    rcases List.mem_cons.mp h with rfl | h
    · rfl
    · simp [isNumeral, isDigit_of_mem_naturalChars h]

theorem integerChars_ne_nil (n : Int) : integerChars n ≠ [] := by
  cases n with
  | ofNat n => exact Nat.toDigits_ne_nil
  | negSucc n => exact List.cons_ne_nil _ _

theorem contains_integerChars {ws : List String}
    (h : ws.all fun w => w = "" || w.toList.any (! isNumeral ·)) (n : Int) :
    ws.contains (String.ofList (integerChars n)) = false := by
  rw [List.contains_eq_mem, decide_eq_false_iff_not]
  intro hmem
  rcases Bool.or_eq_true_iff.mp (List.all_eq_true.mp h _ hmem) with hempty | hother
  · exact integerChars_ne_nil n (String.ofList_eq_empty_iff.mp (of_decide_eq_true hempty))
  · obtain ⟨c, hc, hnot⟩ := List.any_eq_true.mp hother
    rw [String.toList_ofList] at hc
    rw [isNumeral_of_mem_integerChars hc] at hnot
    cases hnot

theorem word?_integerChars (n : Int) : word? (integerChars n) = none := by
  simp only [word?]
  repeat rw [contains_integerChars (by decide +kernel)]
  rfl

theorem withoutUnderscores_integerChars (n : Int) :
    withoutUnderscores (integerChars n) = integerChars n := by
  refine List.filter_eq_self.mpr fun c hc => ?_
  have hnumeral := isNumeral_of_mem_integerChars hc
  rw [decide_eq_true_iff]
  rintro rfl
  cases hnumeral

theorem meaning_integerChars {n : Int} (h : isInt64 n) :
    Meaning.of false (integerChars n) = .int n := by
  have hliteral : integerLiteral? (integerChars n) = some n := by
    rw [integerLiteral?, signedInRange?, signed?_integerChars, Option.filter_some, if_pos h]
    rfl
  have hnumber : numberOrTime false (integerChars n) = .int n := by
    rw [numberOrTime, Bool.false_and, if_neg Bool.false_ne_true]
    simp only [withoutUnderscores_integerChars, hliteral]
  unfold Meaning.of
  rw [word?_integerChars]
  cases hcs : integerChars n with
  | nil => exact absurd hcs (integerChars_ne_nil n)
  | cons c cs =>
    have hc : isNumeral c := isNumeral_of_mem_integerChars (hcs ▸ List.mem_cons_self)
    have hpoint : c ≠ '.' := by
      rintro rfl
      cases hc
    have hnumeral : (c.isDigit || c = '+' || c = '-') = true := by
      simp only [isNumeral, Bool.or_eq_true] at hc ⊢
      tauto
    rw [← hnumber, hcs]
    simp only [hpoint, hnumeral, if_true, if_false]

/-- A plain decimal numeral in 64-bit range is read as its number. -/
theorem integer?_integerChars {n : Int} (h : isInt64 n) : integer? "!!int" (integerChars n) = some n := by
  have hmeaning := meaning_integerChars h
  simp [integer?, hmeaning, Meaning.value, Value.tag, Meaning.integer?, h]

theorem isInt64_toInt (n : Int64) : isInt64 n.toInt := by
  have hle := n.le_toInt
  have hlt := n.toInt_lt
  simp only [isInt64, Bool.and_eq_true, decide_eq_true_eq]
  omega

/-- A reader converts the decimal numerals of 64-bit integers to their numbers. -/
def Scalars.ReadsNumerals (y : Scalars) : Prop :=
  ∀ n : Int64, y.int64? "!!int" (Text.integer n.toInt) = some n

theorem Scalars.standard_readsNumerals : standard.ReadsNumerals := by
  intro n
  show (integer? "!!int" (Text.integer n.toInt).toList).map Int64.ofInt = some n
  rw [Text.integer, String.toList_ofList, integer?_integerChars (isInt64_toInt n), Option.map_some,
    Int64.ofInt_toInt]

end Polytype.Yaml
