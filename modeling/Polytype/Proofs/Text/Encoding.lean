import Mathlib
import Polytype.Text.Source

/-!
# Bytes and text

Decoding is the inverse of UTF-8. `utf8` gives the bytes of a text; bytes decode without a fault if
and only if they are the bytes of some text, and then to that text (`ofBytes_eq_map_some_iff`).

The decoder checks ranges of numbers and the encoder divides by powers of two, so the two are compared
one length at a time: for two, three and four bytes there is one lemma that says in the decoder's terms
which bytes encode a character.
-/

namespace Polytype.Text

/-- The bytes of a text. -/
def utf8 (s : String) : List UInt8 := s.toUTF8.data.toList

theorem utf8_ofList (cs : List Char) :
    utf8 (String.ofList cs) = cs.flatMap String.utf8EncodeChar := by
  simp [utf8, List.utf8Encode]

/-! ## One character -/

/-- A byte that may follow a lead byte. -/
def Continues (b : UInt8) : Prop := 0x80 ≤ b.toNat ∧ b.toNat < 0xC0

theorem continuationBits?_of_continues {b : UInt8} (hb : Continues b) :
    continuationBits? b = some (b.toNat - 0x80) := by
  simp [continuationBits?, hb.1, hb.2]

theorem continuationBits?_eq_none {b : UInt8} (hb : ¬ Continues b) :
    continuationBits? b = none := by
  unfold Continues at hb
  simp only [continuationBits?, Bool.and_eq_true, decide_eq_true_eq, if_neg hb]

theorem mapM_continuationBits?_eq_some_iff {more : List UInt8} {bits : List Nat} :
    more.mapM continuationBits? = some bits ↔
      (∀ b ∈ more, Continues b) ∧ bits = more.map fun b => b.toNat - 0x80 := by
  induction more generalizing bits with
  | nil => simp [eq_comm]
  | cons b more ih =>
    by_cases hb : Continues b
    · simp [List.mapM_cons, continuationBits?_of_continues hb, Option.bind_eq_some_iff, ih, hb,
        and_assoc, eq_comm (b := bits)]
    · simp [List.mapM_cons, continuationBits?_eq_none hb, hb]

/-- A number that is read as a character is the number of that character. -/
theorem ofNatAux_eq_some_iff {n : Nat} {c : Char} :
    (if h : n.isValidChar then some (Char.ofNatAux n h) else none) = some c ↔ n = c.toNat := by
  constructor
  · intro h
    split at h
    · cases h
      rfl
    · cases h
  · intro h
    subst h
    have hv : c.toNat.isValidChar := c.valid
    rw [dif_pos hv]
    rfl

theorem encodedChar?_eq_some_iff {lead : UInt8} {more : List UInt8} {c : Char} :
    encodedChar? lead more = some c ↔ (∀ b ∈ more, Continues b) ∧
      codePoint? lead.toNat (more.map fun b => b.toNat - 0x80) = some c.toNat := by
  simp only [encodedChar?, Option.bind_eq_bind, Option.bind_eq_some_iff, ofNatAux_eq_some_iff,
    mapM_continuationBits?_eq_some_iff]
  constructor
  · rintro ⟨bits, ⟨hmore, hbits⟩, n, hn, hc⟩
    rw [← hbits, ← hc]
    exact ⟨hmore, hn⟩
  · rintro ⟨hmore, hn⟩
    exact ⟨_, ⟨hmore, rfl⟩, _, hn, rfl⟩

theorem toNat_lt_of_char (c : Char) : c.toNat < 0x110000 := by
  have hv : c.toNat.isValidChar := c.valid
  unfold Nat.isValidChar at hv
  omega

theorem utf8EncodeChar_eq_two_iff {c : Char} {lead a : UInt8} :
    String.utf8EncodeChar c = [lead, a] ↔ Continues a ∧ 0xC2 ≤ lead.toNat ∧ lead.toNat < 0xE0 ∧
      c.toNat = (lead.toNat - 0xC0) * 64 + (a.toNat - 0x80) := by
  have hc : c.val.toNat = c.toNat := rfl
  simp only [String.utf8EncodeChar, hc, Continues]
  split_ifs with h1 h2 h3
  · simp; omega
  · simp [← UInt8.toNat_inj]; omega
  · simp; omega
  · simp; omega

theorem utf8EncodeChar_eq_three_iff {c : Char} {lead a b : UInt8} :
    String.utf8EncodeChar c = [lead, a, b] ↔ (Continues a ∧ Continues b) ∧
      0xE0 ≤ lead.toNat ∧ lead.toNat < 0xF0 ∧ 0x800 ≤ c.toNat ∧
      c.toNat = (lead.toNat - 0xE0) * 4096 + (a.toNat - 0x80) * 64 + (b.toNat - 0x80) := by
  have hc : c.val.toNat = c.toNat := rfl
  simp only [String.utf8EncodeChar, hc, Continues]
  split_ifs with h1 h2 h3
  · simp; omega
  · simp; omega
  · simp [← UInt8.toNat_inj]; omega
  · simp; omega

theorem utf8EncodeChar_eq_four_iff {c : Char} {lead a b d : UInt8} :
    String.utf8EncodeChar c = [lead, a, b, d] ↔ (Continues a ∧ Continues b ∧ Continues d) ∧
      0xF0 ≤ lead.toNat ∧ lead.toNat < 0xF8 ∧ 0x10000 ≤ c.toNat ∧
      c.toNat = (lead.toNat - 0xF0) * 262144 + (a.toNat - 0x80) * 4096 + (b.toNat - 0x80) * 64 +
        (d.toNat - 0x80) := by
  have hc : c.val.toNat = c.toNat := rfl
  -- The encoder keeps three bits for the lead byte, which is all of it below U+110000.
  have hlt : c.toNat < 0x110000 := toNat_lt_of_char c
  simp only [String.utf8EncodeChar, hc, Continues]
  split_ifs with h1 h2 h3
  · simp; omega
  · simp; omega
  · simp; omega
  · simp [← UInt8.toNat_inj]; omega

theorem utf8EncodeChar_of_lt {c : Char} (hc : c.toNat < 0x80) :
    String.utf8EncodeChar c = [UInt8.ofNat c.toNat] := by
  have h : c.val.toNat ≤ 0x7f := Nat.le_of_lt_succ hc
  simp only [String.utf8EncodeChar, if_pos h]
  rfl

theorem utf8EncodeChar_of_ge {c : Char} (hc : 0x80 ≤ c.toNat) :
    ∃ lead more, String.utf8EncodeChar c = lead :: more ∧ 0x80 ≤ lead.toNat := by
  have h : ¬ c.val.toNat ≤ 0x7f := Nat.not_le.mpr hc
  simp only [String.utf8EncodeChar, if_neg h]
  split_ifs <;> refine ⟨_, _, rfl, ?_⟩ <;> simp <;> omega

/-- From a lead byte on, the bytes that decode to a character are those that encode it. -/
theorem encodedChar?_iff_utf8EncodeChar {lead : UInt8} {more : List UInt8} {c : Char}
    (hlead : 0x80 ≤ lead.toNat) :
    encodedChar? lead more = some c ↔ String.utf8EncodeChar c = lead :: more := by
  rw [encodedChar?_eq_some_iff]
  -- The number of bytes fixes which lemma applies; no character has one byte from 0x80 on, or five.
  match more with
  | [] =>
    have hne : String.utf8EncodeChar c ≠ [lead] := by
      intro h
      rcases Nat.lt_or_ge c.toNat 0x80 with hc | hc
      · rw [utf8EncodeChar_of_lt hc] at h
        simp [← UInt8.toNat_inj] at h
        omega
      · have hsize := congrArg List.length h
        simp [Char.utf8Size_eq_one_iff, UInt32.le_iff_toNat_le] at hsize
        have : c.val.toNat = c.toNat := rfl
        omega
    simp [codePoint?, hne]
  | [a] =>
    rw [utf8EncodeChar_eq_two_iff]
    simp [codePoint?]
    omega
  | [a, b] =>
    rw [utf8EncodeChar_eq_three_iff]
    simp [codePoint?]
    omega
  | [a, b, d] =>
    rw [utf8EncodeChar_eq_four_iff]
    simp [codePoint?]
    omega
  | a :: b :: d :: e :: more =>
    have hne : String.utf8EncodeChar c ≠ lead :: a :: b :: d :: e :: more := by
      intro h
      have hlen := congrArg List.length h
      have hsize := c.utf8Size_le_four
      simp at hlen
      omega
    simp [codePoint?, hne]

/-- The lead byte tells how many bytes follow it. -/
theorem length_of_utf8EncodeChar {lead : UInt8} {more : List UInt8} {c : Char}
    (hlead : 0x80 ≤ lead.toNat) (h : String.utf8EncodeChar c = lead :: more) :
    more.length = followCount lead := by
  have hdecoded := (encodedChar?_iff_utf8EncodeChar hlead).mpr h
  rw [encodedChar?_eq_some_iff] at hdecoded
  unfold followCount
  match more with
  | [] => simp [codePoint?] at hdecoded
  | [a] =>
    rw [utf8EncodeChar_eq_two_iff] at h
    rw [if_pos (by omega)]
    rfl
  | [a, b] =>
    rw [utf8EncodeChar_eq_three_iff] at h
    rw [if_neg (by omega), if_pos (by omega)]
    rfl
  | [a, b, d] =>
    rw [utf8EncodeChar_eq_four_iff] at h
    rw [if_neg (by omega), if_neg (by omega)]
    rfl
  | a :: b :: d :: e :: more => simp [codePoint?] at hdecoded

/-! ## Whole texts -/

theorem decode_eq_decode_drop (skip : Nat) (bytes : List UInt8) :
    Source.decode skip bytes = Source.decode 0 (bytes.drop skip) := by
  induction bytes generalizing skip with
  | nil => cases skip <;> rfl
  | cons b rest ih =>
    cases skip with
    | zero => rfl
    | succ skip => exact ih skip

/-- Decoding takes the bytes of a character off the front. -/
theorem decode_utf8EncodeChar (c : Char) (rest : List UInt8) :
    Source.decode 0 (String.utf8EncodeChar c ++ rest) = some c :: Source.decode 0 rest := by
  rcases Nat.lt_or_ge c.toNat 0x80 with hc | hc
  · rw [utf8EncodeChar_of_lt hc]
    have hb : (UInt8.ofNat c.toNat).toNat = c.toNat := by
      simp
      omega
    simp [Source.decode, hb, hc]
  · rcases utf8EncodeChar_of_ge hc with ⟨lead, more, henc, hlead⟩
    have hlen : more.length = followCount lead := length_of_utf8EncodeChar hlead henc
    have hread : encodedChar? lead more = some c := (encodedChar?_iff_utf8EncodeChar hlead).mpr henc
    rw [henc, List.cons_append, Source.decode, if_neg (Nat.not_lt.mpr hlead), ← hlen,
      List.take_left, hread]
    simp only
    rw [decode_eq_decode_drop, List.drop_left]

theorem ofBytes_flatMap (cs : List Char) :
    Source.ofBytes (cs.flatMap String.utf8EncodeChar) = cs.map some := by
  unfold Source.ofBytes
  induction cs with
  | nil => rfl
  | cons c cs ih => rw [List.flatMap_cons, decode_utf8EncodeChar, ih, List.map_cons]

theorem drop_eq_flatMap_of_decode {skip : Nat} {bytes : List UInt8} {cs : List Char}
    (h : Source.decode skip bytes = cs.map some) :
    bytes.drop skip = cs.flatMap String.utf8EncodeChar := by
  fun_induction Source.decode skip bytes generalizing cs with
  | case1 skip =>
    cases cs with
    | nil => simp
    | cons c cs => cases h
  | case2 skip b rest ih => exact ih h
  | case3 b rest hb ih =>
    cases cs with
    | nil => cases h
    | cons c cs =>
      obtain ⟨hhead, htail⟩ := List.cons.inj h
      have hc : c = Char.ofNat b.toNat := (Option.some.inj hhead).symm
      have hn : c.toNat = b.toNat := by
        have hv : b.toNat.isValidChar := Or.inl (by omega)
        rw [hc, Char.ofNat, dif_pos hv]
        rfl
      rw [List.flatMap_cons, utf8EncodeChar_of_lt (by omega), hn, ← ih htail]
      simp
  | case4 b rest hb c hread ih =>
    -- The bytes that were looked at are those that the next step skips.
    cases cs with
    | nil => cases h
    | cons d cs =>
      obtain ⟨hhead, htail⟩ := List.cons.inj h
      cases hhead
      rw [encodedChar?_iff_utf8EncodeChar (Nat.not_lt.mp hb)] at hread
      rw [List.flatMap_cons, hread, ← ih htail, List.cons_append, List.take_append_drop]
      rfl
  | case5 b rest hb hread ih =>
    cases cs with
    | nil => cases h
    | cons c cs => cases (List.cons.inj h).1

/-- Bytes decode to a text without a fault exactly if they are the text's bytes. -/
theorem ofBytes_eq_map_some_iff {bytes : List UInt8} {cs : List Char} :
    Source.ofBytes bytes = cs.map some ↔ bytes = utf8 (String.ofList cs) := by
  rw [utf8_ofList]
  constructor
  · exact drop_eq_flatMap_of_decode
  · intro h
    rw [h, ofBytes_flatMap]

/-- Decoding undoes encoding. -/
theorem ofBytes_utf8 (s : String) : Source.ofBytes (utf8 s) = Source.ofString s :=
  ofBytes_eq_map_some_iff.mpr (by rw [String.ofList_toList])

end Polytype.Text
