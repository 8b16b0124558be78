import Mathlib
import Polytype.Document.Decode
import Polytype.Yaml.Tag

/-!
# Two ways to write an integer

A plain scalar without a tag stands for an integer where its text denotes one. The form `int` converts the
scalar that is its value, and what a text converts to is more than what it denotes: nothing is zero, and a
fraction loses its places. `ofNode_intForm_iff` says for which texts the two ways differ.

Which integer a text converts to is for the reader of scalars to say. What is relied on is
`Yaml.Scalars.Documented`, which says nothing about numbers in floating point beyond the 64-bit range;
`Yaml.Scalars.standard_documented` says that the standard reader is one of this kind.
-/

namespace Polytype

open Polytype.Text (isInt64)
open Polytype.Yaml (Node Mark Style Scalars Value)

namespace Yaml

/-! ## What a reader of scalars promises -/

/-- The conversion of plain scalars to 64-bit integers: integers have to be in range, numbers in floating
point within it lose their places, nothing is zero, and all else is refused. -/
structure Scalars.Documented (y : Scalars) : Prop where
  int {text : String} {n : Int} (h : y.denote text = .int n) :
    y.int64? "!!int" text = if isInt64 n then some (Int64.ofInt n) else none
  float {text : String} {n : Int} (h : y.denote text = .float (some n)) (hn : isInt64 n) :
    y.int64? "!!float" text = some (Int64.ofInt n)
  null {text : String} (h : y.denote text = .null) : y.int64? "!!null" text = some 0
  other {text : String} (h : y.denote text ∈ [.bool, .timestamp, .merge, .text]) :
    y.int64? (y.denote text).tag text = none

theorem Value.tag_eq_int_iff {v : Value} : v.tag = "!!int" ↔ ∃ n, v = .int n := by
  cases v <;> simp [Value.tag]

/-! ## The standard reader -/

theorem numberOrTime_false {cs : List Char} (h : numberOrTime true cs ≠ .timestamp) :
    numberOrTime false cs = numberOrTime true cs := by
  have htime : ¬(true && isTimestamp cs) = true := by
    intro htime
    rw [numberOrTime, if_pos htime] at h
    exact h rfl
  rw [numberOrTime, numberOrTime, if_neg htime]
  rfl

/-- Points in time are all that is told apart only on demand. -/
theorem Meaning.of_false {cs : List Char} (h : Meaning.of true cs ≠ .timestamp) :
    Meaning.of false cs = Meaning.of true cs := by
  cases hw : word? cs with
  | some d => simp only [Meaning.of, hw]
  | none =>
    simp only [Meaning.of, hw] at h ⊢
    cases cs with
    | nil => rfl
    | cons c rest =>
      by_cases hpoint : c = '.'
      · simp only [if_pos hpoint]
      · by_cases hstart : (c.isDigit || c = '+' || c = '-') = true
        · simp only [if_neg hpoint, if_pos hstart] at h ⊢
          exact numberOrTime_false h
        · simp only [if_neg hpoint, if_neg hstart]

/-- A text converts to an integer just as what it denotes does, if it has the tag of that. -/
theorem integer?_tag {cs : List Char} {m : Meaning} (h : Meaning.of true cs = m) :
    integer? m.value.tag cs = m.integer? := by
  cases m with
  | timestamp => simp [integer?, h, Meaning.value, Value.tag]
  | text => simp [integer?, Meaning.value, Value.tag, Meaning.integer?]
  | null | bool | int | float =>
    have hsame : Meaning.of false cs = _ := (Meaning.of_false (by simp [h])).trans h
    simp [integer?, hsame, Meaning.value, Value.tag]

theorem isInt64_iff {n : Int} : isInt64 n ↔ -0x8000000000000000 ≤ n ∧ n < 0x8000000000000000 := by
  rw [isInt64, Bool.and_eq_true, decide_eq_true_iff, decide_eq_true_iff]

theorem toInt64?_of_whole? {x : Text.Binary64} {n : Int} (h : x.whole? = some n) (hn : isInt64 n) :
    x.toInt64? = some n := by
  cases x with
  | finite negative significand exponent =>
    cases h
    have hrange := isInt64_iff.mp hn
    rw [Text.Binary64.toInt64?]
    simp only [hn, if_true]
    exact if_neg (by omega)
  | infinite negative => cases h
  | notANumber => cases h

namespace Scalars

theorem denote_standard {text : String} (h : standard.denote text ≠ .merge) :
    standard.denote text = (Meaning.of true text.toList).value := by
  refine if_neg fun hmerge => h ?_
  rw [hmerge]
  rfl

theorem int64?_standard {text : String} {v : Value} (h : standard.denote text = v) (hv : v ≠ .merge) :
    ∃ m : Meaning, m.value = v ∧ standard.int64? v.tag text = m.integer?.map Int64.ofInt := by
  subst h
  refine ⟨Meaning.of true text.toList, (denote_standard hv).symm, ?_⟩
  rw [denote_standard hv]
  exact congrArg (Option.map Int64.ofInt) (integer?_tag rfl)

theorem standard_documented : standard.Documented where
  int {text n} h := by
    obtain ⟨m, hm, heq⟩ := int64?_standard h (by simp)
    cases m with
    | int k =>
      cases hm
      rw [Value.tag, Meaning.integer?] at heq
      rw [heq]
      split <;> rfl
    | _ => cases hm
  float {text n} h hn := by
    obtain ⟨m, hm, heq⟩ := int64?_standard h (by simp)
    cases m with
    | float x =>
      have hwhole : x.whole? = some n := Value.float.inj hm
      rwa [Value.tag, Meaning.integer?, toInt64?_of_whole? hwhole hn, Option.map_some] at heq
    | _ => cases hm
  null {text} h := by
    obtain ⟨m, hm, heq⟩ := int64?_standard h (by simp)
    cases m with
    | null => exact heq
    | _ => cases hm
  other {text} h := by
    by_cases hmerge : text = "<<"
    · rw [hmerge]
      rfl
    · have hvalue : standard.denote text = (Meaning.of true text.toList).value := if_neg hmerge
      have hv : standard.denote text ≠ .merge := by
        rw [hvalue]
        cases Meaning.of true text.toList <;> simp [Meaning.value]
      obtain ⟨m, hm, heq⟩ := int64?_standard rfl hv
      rw [heq]
      rw [← hm] at h
      cases m <;> simp [Meaning.value, Meaning.integer?] at h ⊢

end Scalars

end Yaml

/-! ## The shorthand and the form -/

namespace Document

section

variable [y : Scalars]

/-- A plain scalar without a tag. -/
def plain (mark : Mark) (text : String) : Node := .ofScalar mark .plain none text

theorem plain_eq (mark : Mark) (text : String) :
    plain mark text = .scalar mark .plain (y.denote text).tag text :=
  rfl

/-- The form of an integer whose value is a node. The name of its field may be written in any way. -/
def intForm (whole : Mark) (key : Mark × Style × String) (value : Node) : Node :=
  .mapping whole [.mk (.scalar key.1 key.2.1 key.2.2 "int") value]

theorem ofNode_intForm (whole : Mark) (key : Mark × Style × String) (value : Node) :
    Expr.ofNode (intForm whole key value) = intLiteral value :=
  rfl

theorem ofNode_plain (mark : Mark) (text : String) :
    Expr.ofNode (plain mark text) = scalar mark .plain (y.denote text).tag text :=
  rfl

theorem intLiteral_plain (mark : Mark) (text : String) :
    intLiteral (plain mark text) = (y.int64? (y.denote text).tag text).elim
      (.error ⟨mark, .invalidInteger text⟩) fun n => .ok (.int n .absent) := by
  rw [plain_eq, intLiteral]
  cases y.int64? (y.denote text).tag text <;> rfl

/-- The form reads what a text converts to. -/
theorem intLiteral_plain_iff {mark : Mark} {text : String} {e : Expr} :
    intLiteral (plain mark text) = .ok e ↔
      ∃ n, y.int64? (y.denote text).tag text = some n ∧ e = .int n .absent := by
  rw [intLiteral_plain]
  cases y.int64? (y.denote text).tag text with
  | none => simp
  | some n => simp [eq_comm]

/-- A scalar without quotes is an integer only by its tag. -/
theorem scalar_plain_int {mark : Mark} {tag text : String} {n : Int64}
    (h : scalar mark .plain tag text = .ok (.int n .absent)) : tag = "!!int" := by
  by_contra htag
  by_cases hname : tag = "!!str" ∨ tag = "!!bool"
  · simp [scalar, htag, hname] at h
  · simp [scalar, htag, hname] at h

/-- The shorthand reads what a text converts to, if the text denotes an integer. -/
theorem ofNode_plain_int_iff {mark : Mark} {text : String} {e : Expr} :
    (Expr.ofNode (plain mark text) = .ok e ∧ ∃ n, e = .int n .absent) ↔
      (∃ k, y.denote text = .int k) ∧ intLiteral (plain mark text) = .ok e := by
  have hint : (y.denote text).tag = "!!int" →
      Expr.ofNode (plain mark text) = intLiteral (plain mark text) := by
    intro htag
    rw [ofNode_plain, scalar, if_neg (by simp), if_pos htag, plain_eq]
  constructor
  · rintro ⟨h, _, rfl⟩
    have htag := scalar_plain_int h
    rw [hint htag] at h
    exact ⟨Value.tag_eq_int_iff.mp htag, h⟩
  · rintro ⟨hk, h⟩
    rw [hint (Value.tag_eq_int_iff.mpr hk)]
    obtain ⟨n, _, rfl⟩ := intLiteral_plain_iff.mp h
    exact ⟨h, n, rfl⟩

/-- Where a text denotes nothing or a number in floating point, the shorthand refuses it. -/
theorem ofNode_plain_refused {mark : Mark} {text : String}
    (h : y.denote text = .null ∨ ∃ whole, y.denote text = .float whole) :
    Expr.ofNode (plain mark text) = .error ⟨mark, .unexpectedScalar (y.denote text).tag text⟩ := by
  rw [ofNode_plain]
  rcases h with h | ⟨whole, h⟩ <;> rw [h] <;> rfl

/-- What converts to an integer denotes an integer, nothing or a number in floating point. -/
theorem int64?_eq_some_iff (hy : y.Documented) {text : String} {n : Int64} :
    y.int64? (y.denote text).tag text = some n ↔
      ((∃ k, y.denote text = .int k) ∧ y.int64? (y.denote text).tag text = some n) ∨
      (y.denote text = .null ∧ n = 0) ∨
      ∃ whole, y.denote text = .float whole ∧ y.int64? "!!float" text = some n := by
  cases hv : y.denote text with
  | int k => simp
  | null => simp [Value.tag, hy.null hv, eq_comm]
  | float whole => simp [Value.tag]
  | bool | timestamp | merge | text =>
    have hnone := @Scalars.Documented.other y hy text (by simp [hv])
    rw [hv] at hnone
    simp [hnone]

/-- The form `int` around a plain scalar is read just where the scalar by itself is an integer, and then as
the same one, or where the scalar's text denotes nothing, which is zero, or a number in floating point that
converts to an integer. Integers have to be in the 64-bit range; numbers in floating point within it always
convert, and lose their places. Nothing and numbers in floating point are refused by themselves. What the form
does not read is reported as an invalid integer. -/
theorem ofNode_intForm_iff (hy : y.Documented) (whole : Mark) (key : Mark × Style × String) (mark : Mark)
    (text : String) :
    (∀ e, Expr.ofNode (intForm whole key (plain mark text)) = .ok e ↔
      (Expr.ofNode (plain mark text) = .ok e ∧ ∃ n, e = .int n .absent) ∨
      (y.denote text = .null ∧ e = .int 0 .absent) ∨
      ∃ w n, y.denote text = .float w ∧ y.int64? "!!float" text = some n ∧ e = .int n .absent) ∧
    (∀ n, y.denote text = .int n → Expr.ofNode (intForm whole key (plain mark text)) =
      if isInt64 n then .ok (.int (Int64.ofInt n) .absent) else .error ⟨mark, .invalidInteger text⟩) ∧
    (∀ n, y.denote text = .float (some n) → isInt64 n →
      Expr.ofNode (intForm whole key (plain mark text)) = .ok (.int (Int64.ofInt n) .absent)) ∧
    (∀ err, Expr.ofNode (intForm whole key (plain mark text)) = .error err →
      err = ⟨mark, .invalidInteger text⟩) ∧
    ((y.denote text = .null ∨ ∃ w, y.denote text = .float w) →
      Expr.ofNode (plain mark text) = .error ⟨mark, .unexpectedScalar (y.denote text).tag text⟩) := by
  rw [ofNode_intForm]
  refine ⟨fun e => ?_, fun n hv => ?_, fun n hv hn => ?_, fun err h => ?_, ofNode_plain_refused⟩
  · rw [ofNode_plain_int_iff, intLiteral_plain_iff]
    constructor
    · rintro ⟨n, hn, rfl⟩
      rcases (int64?_eq_some_iff hy).mp hn with ⟨hk, hn⟩ | ⟨hnull, rfl⟩ | ⟨w, hw, hn⟩
      · exact .inl ⟨hk, n, hn, rfl⟩
      · exact .inr (.inl ⟨hnull, rfl⟩)
      · exact .inr (.inr ⟨w, n, hw, hn, rfl⟩)
    · rintro (⟨_, h⟩ | ⟨hnull, rfl⟩ | ⟨w, n, hw, hn, rfl⟩)
      · exact h
      · exact ⟨0, (int64?_eq_some_iff hy).mpr (.inr (.inl ⟨hnull, rfl⟩)), rfl⟩
      · exact ⟨n, (int64?_eq_some_iff hy).mpr (.inr (.inr ⟨w, hw, hn⟩)), rfl⟩
  · rw [intLiteral_plain, hv, Value.tag, hy.int hv]
    split <;> rfl
  · refine intLiteral_plain_iff.mpr ⟨_, ?_, rfl⟩
    rw [hv]
    exact hy.float hv hn
  · rw [intLiteral_plain] at h
    cases hn : y.int64? (y.denote text).tag text with
    | none =>
      rw [hn] at h
      cases h
      rfl
    | some n =>
      rw [hn] at h
      cases h

end

/-- A fraction by itself is refused, and the form reads it without its places. -/
theorem ofNode_intForm_iff_fraction :
    Scalars.standard.Documented ∧ Scalars.standard.denote "1.9" = .float (some 1) ∧
      Expr.ofNode (intForm ⟨1, 1⟩ (⟨1, 2⟩, .plain, "!!str") (plain ⟨1, 7⟩ "1.9")) =
        .ok (.int 1 .absent) ∧
      Expr.ofNode (plain ⟨1, 7⟩ "1.9") = .error ⟨⟨1, 7⟩, .unexpectedScalar "!!float" "1.9"⟩ := by
  have hdenote : Scalars.standard.denote "1.9" = .float (some 1) := by decide +kernel
  obtain ⟨_, _, hform, _, hplain⟩ := ofNode_intForm_iff Scalars.standard_documented ⟨1, 1⟩
    (⟨1, 2⟩, .plain, "!!str") ⟨1, 7⟩ "1.9"
  refine ⟨Scalars.standard_documented, hdenote, hform 1 hdenote (by decide), ?_⟩
  have hrefused := hplain (.inr ⟨_, hdenote⟩)
  rw [hdenote] at hrefused
  exact hrefused

-- nothing, and an integer below the range, which denotes the fraction nearest to it
example : ["~", "-9223372036854775809"].map (fun text =>
    Scalars.standard.int64? (Scalars.standard.denote text).tag text) =
      [some 0, some (-9223372036854775808)] := by
  decide +kernel

end Document

end Polytype
